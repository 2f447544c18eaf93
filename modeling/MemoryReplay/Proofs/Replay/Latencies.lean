import MemoryReplay.Proofs.Replay.Timetable

/-!
# Recorded latencies

A completion names an address and a direction, not a request, so the stamps of requests with one
key may be exchanged. Their number before any cycle is the same, which bounds each of them.

- `Timetable.le_complete`, `Timetable.complete_le`: a request is stamped no earlier than it and the
  later visits with its key finish, and no later than it and the earlier ones finish.
- `Timetable.sum_stampedLatency`: the recorded latencies have the sum of the given ones.
- `latencies_conserved`: this sum, and the bounds of each latency model.
-/

namespace MemoryReplay

namespace RunReport.Timetable

variable {c : MemoryConfig} {queues : Vector (List Request) channels} {start : Service}
  {report : RunReport} {last : QueuedMemory Service} {visits earlier later : List Visit}
  {older newer : List Request} {r : Request} {v : Visit} {n : Nat}

theorem keys (h : report.Timetable c queues start last visits) :
    report.requests.map Request.key = visits.map Visit.key := by
  have hfst := congrArg (List.map Prod.fst) h.arrivals
  rw [List.map_map, List.map_map] at hfst
  exact hfst

theorem issueCycles (h : report.Timetable c queues start last visits) :
    report.requests.map Request.issueCycle = visits.map Visit.issue := by
  have hsnd := congrArg (List.map Prod.snd) h.arrivals
  rw [List.map_map, List.map_map] at hsnd
  exact hsnd

theorem length_eq (h : report.Timetable c queues start last visits) :
    report.requests.length = (visits.map Visit.latency).length := by
  have hkeys := congrArg List.length h.keys
  rw [List.length_map, List.length_map] at hkeys
  rw [List.length_map, hkeys]

/-- A request with the latency of its visit knows all of its visit. -/
theorem zip_latencies (h : report.Timetable c queues start last visits) :
    ((report.requests.zip (visits.map Visit.latency)).map fun p => (p.1.arrival, p.2)) =
      visits.map fun v => (v.arrival, v.latency) := by
  have hzip : (report.requests.zip (visits.map Visit.latency)).map (Prod.map Request.arrival id) =
      (report.requests.map Request.arrival).zip (visits.map Visit.latency) := by
    rw [List.zip_map_left]
  rw [h.arrivals, List.zip_map'] at hzip
  exact hzip

/-- The visit of a request stands at the same place as the request. -/
theorem exists_visit (h : report.Timetable c queues start last visits)
    (hr : report.requests = older ++ r :: newer) :
    ∃ earlier v later, visits = earlier ++ v :: later ∧
      older.map Request.key = earlier.map Visit.key ∧ v.key = r.key ∧ v.issue = r.issueCycle := by
  have harrivals := h.arrivals
  rw [hr, List.map_append, List.map_cons] at harrivals
  obtain ⟨earlier, rest, rfl, hearlier, hrest⟩ := List.map_eq_append_iff.mp harrivals.symm
  obtain ⟨v, later, rfl, hv, -⟩ := List.map_eq_cons_iff.mp hrest
  obtain ⟨hkey, hissue⟩ := Prod.mk.inj hv
  refine ⟨earlier, v, later, rfl, ?_, hkey, hissue⟩
  have hfst := congrArg (List.map Prod.fst) hearlier.symm
  rw [List.map_map, List.map_map] at hfst
  exact hfst

/-- As many requests with one key come before a request as visits before its visit. -/
theorem countP_key_eq (hsame : older.map Request.key = earlier.map Visit.key) (key : Completion) :
    older.countP (fun x => x.key = key) = earlier.countP fun w => w.key = key := by
  have hcount := congrArg (List.countP fun k => k = key) hsame
  rw [List.countP_map, List.countP_map] at hcount
  exact hcount

/-- As many requests with one key are stamped before a cycle as visits with it finish before. -/
theorem countP_stamp_eq (h : report.Timetable c queues start last visits) (key : Completion)
    (n : Nat) : report.requests.countP (fun x => x.key = key ∧ x.completeCycle < n) =
      visits.countP fun w => w.key = key ∧ w.finish < n := by
  have hcount := h.stamps.countP_eq fun p => p.1 = key ∧ p.2 < n
  rw [List.countP_map, List.countP_map] at hcount
  exact hcount

/-- A request is not stamped before it or a later visit with its key finishes. -/
theorem le_complete (h : report.Timetable c queues start last visits)
    (hr : report.requests = older ++ r :: newer) (hvisits : visits = earlier ++ v :: later)
    (hsame : older.map Request.key = earlier.map Visit.key)
    (hlate : ∀ w ∈ v :: later, w.key = r.key → n ≤ w.finish) : n ≤ r.completeCycle := by
  by_contra hearly
  have hearly := Nat.lt_of_not_le hearly
  -- before cycle `n` the request and all earlier ones with its key are stamped, but only visits
  -- before its own finish
  have hcount := h.countP_stamp_eq r.key n
  rw [hr, hvisits, List.countP_append, List.countP_append,
    List.countP_cons_of_pos (by simpa using hearly)] at hcount
  have horder := (List.pairwise_append.mp (hr ▸ h.inOrder)).2.2
  have hstamped : older.countP (fun x => x.key = r.key) ≤
      older.countP fun x => x.key = r.key ∧ x.completeCycle < n := by
    refine List.countP_mono_left fun x hx hkey => ?_
    have hkey : x.key = r.key := of_decide_eq_true hkey
    have hle := horder x hx r List.mem_cons_self hkey
    exact decide_eq_true ⟨hkey, Nat.lt_of_le_of_lt hle hearly⟩
  have hfinished : earlier.countP (fun w => w.key = r.key ∧ w.finish < n) ≤
      earlier.countP fun w => w.key = r.key :=
    List.countP_mono_left fun w _ hw => decide_eq_true (of_decide_eq_true hw).1
  have hnone : (v :: later).countP (fun w => w.key = r.key ∧ w.finish < n) = 0 := by
    refine List.countP_eq_zero.mpr fun w hw hfinish => ?_
    obtain ⟨hkey, hlt⟩ := of_decide_eq_true hfinish
    exact absurd (hlate w hw hkey) (Nat.not_le.mpr hlt)
  have hkeys := countP_key_eq hsame r.key
  omega

/-- A request is stamped by the time when it and the earlier visits with its key have finished. -/
theorem complete_le (h : report.Timetable c queues start last visits)
    (hr : report.requests = older ++ r :: newer) (hvisits : visits = earlier ++ v :: later)
    (hsame : older.map Request.key = earlier.map Visit.key) (hkey : v.key = r.key)
    (hfinish : v.finish ≤ n) (hearly : ∀ w ∈ earlier, w.key = r.key → w.finish ≤ n) :
    r.completeCycle ≤ n := by
  by_contra hlate
  have hlate := Nat.lt_of_not_le hlate
  -- up to cycle `n` its visit and all earlier ones with its key finish, but only requests before
  -- it are stamped
  have hcount := h.countP_stamp_eq r.key (n + 1)
  rw [hr, hvisits, List.countP_append, List.countP_append, List.countP_cons_of_pos (a := v)
    (decide_eq_true ⟨hkey, Nat.lt_succ_of_le hfinish⟩)] at hcount
  have horder := (List.pairwise_cons.mp (List.pairwise_append.mp (hr ▸ h.inOrder)).2.1).1
  have hfinished : earlier.countP (fun w => w.key = r.key) ≤
      earlier.countP fun w => w.key = r.key ∧ w.finish < n + 1 := by
    refine List.countP_mono_left fun w hw hkey => ?_
    have hkey : w.key = r.key := of_decide_eq_true hkey
    exact decide_eq_true ⟨hkey, Nat.lt_succ_of_le (hearly w hw hkey)⟩
  have hstamped : older.countP (fun x => x.key = r.key ∧ x.completeCycle < n + 1) ≤
      older.countP fun x => x.key = r.key :=
    List.countP_mono_left fun x _ hx => decide_eq_true (of_decide_eq_true hx).1
  have hnone : (r :: newer).countP (fun x => x.key = r.key ∧ x.completeCycle < n + 1) = 0 := by
    refine List.countP_eq_zero.mpr fun x hx hstamp => ?_
    obtain ⟨hxkey, hlt⟩ := of_decide_eq_true hstamp
    rcases List.mem_cons.mp hx with rfl | hx
    · exact absurd hlt (Nat.not_lt.mpr hlate)
    · have hle := horder x hx hxkey.symm
      exact absurd hlt (Nat.not_lt.mpr (Nat.lt_of_lt_of_le hlate hle))
  have hkeys := countP_key_eq hsame r.key
  omega

/-! ### Bounds -/

/-- A bound below all given latencies of a key is one below the recorded ones. -/
theorem le_complete_of_forall (h : report.Timetable c queues start last visits)
    (least : Completion → Nat) (hleast : ∀ v ∈ visits, least v.key ≤ max 1 v.latency)
    (hmem : r ∈ report.requests) : r.issueCycle + least r.key ≤ r.completeCycle := by
  obtain ⟨older, newer, hr⟩ := List.append_of_mem hmem
  obtain ⟨earlier, v, later, hvisits, hsame, -, hissue⟩ := h.exists_visit hr
  refine h.le_complete hr hvisits hsame fun w hw hkey => ?_
  have hafter := (List.pairwise_append.mp (hvisits ▸ h.issues)).2.1
  have hle : v.issue ≤ w.issue := by
    rcases List.mem_cons.mp hw with rfl | hw
    · exact Nat.le_refl _
    · exact (List.pairwise_cons.mp hafter).1 w hw
  have hlatency := hleast w (hvisits ▸ List.mem_append_right _ hw)
  rw [hkey] at hlatency
  unfold Visit.finish
  omega

/-- A bound above all given latencies of a key is one above the recorded ones. -/
theorem complete_le_of_forall (h : report.Timetable c queues start last visits)
    (most : Completion → Nat) (hmost : ∀ v ∈ visits, max 1 v.latency ≤ most v.key)
    (hmem : r ∈ report.requests) : r.completeCycle ≤ r.issueCycle + most r.key := by
  obtain ⟨older, newer, hr⟩ := List.append_of_mem hmem
  obtain ⟨earlier, v, later, hvisits, hsame, hvkey, hissue⟩ := h.exists_visit hr
  have hbefore := (List.pairwise_append.mp (hvisits ▸ h.issues)).2.2
  refine h.complete_le hr hvisits hsame hvkey ?_ fun w hw hkey => ?_
  · have hlatency := hmost v (hvisits ▸ List.mem_append_right _ List.mem_cons_self)
    rw [hvkey] at hlatency
    unfold Visit.finish
    omega
  · have hlatency := hmost w (hvisits ▸ List.mem_append_left _ hw)
    have hle := hbefore w hw v List.mem_cons_self
    rw [hkey] at hlatency
    unfold Visit.finish
    omega

theorem issue_lt_complete (h : report.Timetable c queues start last visits)
    (hmem : r ∈ report.requests) : r.issueCycle < r.completeCycle :=
  h.le_complete_of_forall (fun _ => 1) (fun _ _ => Nat.le_max_left ..) hmem

/-! ### The sum -/

/-- **The recorded latencies have the sum of the given ones**, where no latency counts less than a
cycle. -/
theorem sum_stampedLatency (h : report.Timetable c queues start last visits) :
    (report.requests.map Request.stampedLatency).sum =
      (visits.map fun v => max 1 v.latency).sum := by
  have hrecorded : (report.requests.map Request.issueCycle).sum +
      (report.requests.map Request.stampedLatency).sum =
        (report.requests.map Request.completeCycle).sum := by
    rw [← List.sum_map_add]
    refine congrArg _ (List.map_congr_left fun r hr => ?_)
    exact Nat.add_sub_cancel' (Nat.le_of_lt (h.issue_lt_complete hr))
  have hgiven : (visits.map Visit.issue).sum + (visits.map fun v => max 1 v.latency).sum =
      (visits.map Visit.finish).sum := by
    rw [← List.sum_map_add]
    rfl
  have hstamps := (h.stamps.map Prod.snd).sum_eq
  rw [List.map_map, List.map_map] at hstamps
  have hsame : (report.requests.map Request.completeCycle).sum = (visits.map Visit.finish).sum :=
    hstamps
  rw [h.issueCycles] at hrecorded
  omega

/-! ### What the model has given -/

/-- The latencies of the visits are those that the configuration gives to the requests. -/
theorem latencies_eq (h : report.Timetable c queues start last visits) (hc : c.Usable)
    (hstart : c.service = some start) :
    visits.map Visit.latency = c.latencies (report.requests.map Request.key) :=
  (MemoryConfig.serve_eq hc hstart h.served).1

/-- What was admitted with which latency, from what was accessed before. -/
theorem outcomes_eq (h : report.Timetable c queues start last visits) (hc : c.Usable)
    (hstart : c.service = some start) :
    (visits.map fun v => (v.key, v.latency)) =
      (c.outcomes (report.requests.map Request.key)).map fun o => (o.1, c.cyclesOf o) := by
  rw [← List.zip_map', ← List.zip_map']
  have hkeys := c.map_fst_outcomes (report.requests.map Request.key)
  rw [h.keys] at hkeys
  rw [h.latencies_eq hc hstart, h.keys, MemoryConfig.latencies]
  exact congrArg (List.zip · _) hkeys.symm

/-- What holds of every access with its latency holds of the visits. -/
theorem forall_visit (h : report.Timetable c queues start last visits) (hc : c.Usable)
    (hstart : c.service = some start) {P : Completion → Nat → Prop}
    (hall : ∀ o ∈ c.outcomes (report.requests.map Request.key), P o.1 (c.cyclesOf o))
    (hv : v ∈ visits) : P v.key v.latency := by
  have hmem : (v.key, v.latency) ∈ visits.map fun v => (v.key, v.latency) :=
    List.mem_map_of_mem (f := fun v : Visit => (v.key, v.latency)) hv
  rw [h.outcomes_eq hc hstart] at hmem
  obtain ⟨o, ho, heq⟩ := List.mem_map.mp hmem
  obtain ⟨hkey, hlatency⟩ := Prod.mk.inj heq
  rw [← hkey, ← hlatency]
  exact hall o ho

/-- With constant latencies every request is recorded with that of its direction. -/
theorem stampedLatency_fixed (h : report.Timetable c queues start last visits) (hc : c.Usable)
    (hstart : c.service = some start) (hmodel : c.model = .fixed) (hr : r ∈ report.requests) :
    r.stampedLatency = max 1 (c.fixed.of r.direction).toNat := by
  have hgiven : ∀ v ∈ visits, v.latency = (c.fixed.of v.key.direction).toNat := fun v hv =>
    h.forall_visit hc hstart (P := fun key n => n = (c.fixed.of key.direction).toNat)
      (fun o ho => c.cyclesOf_fixed hmodel ho) hv
  have hle := h.complete_le_of_forall (fun key => max 1 (c.fixed.of key.direction).toNat)
    (fun v hv => Nat.le_of_eq (congrArg _ (hgiven v hv))) hr
  have hge := h.le_complete_of_forall (fun key => max 1 (c.fixed.of key.direction).toNat)
    (fun v hv => Nat.le_of_eq (congrArg _ (hgiven v hv)).symm) hr
  unfold Request.stampedLatency
  exact Nat.sub_eq_of_eq_add (by rw [Nat.add_comm]; exact Nat.le_antisymm hle hge)

/-- With open rows no request is recorded faster than a hit or slower than a conflict. -/
theorem stampedLatency_rows (h : report.Timetable c queues start last visits) (hc : c.Usable)
    (hstart : c.service = some start) (hmodel : c.model = .rowBuffer) (hr : r ∈ report.requests) :
    max 1 c.rows.cas.toNat ≤ r.stampedLatency ∧ r.stampedLatency ≤
      max 1 (c.rows.pre.toNat + c.rows.ras.toNat + c.rows.cas.toNat) := by
  have hgiven : ∀ v ∈ visits, c.rows.cas.toNat ≤ v.latency ∧
      v.latency ≤ c.rows.pre.toNat + c.rows.ras.toNat + c.rows.cas.toNat := fun v hv =>
    h.forall_visit hc hstart (P := fun _ n => c.rows.cas.toNat ≤ n ∧
      n ≤ c.rows.pre.toNat + c.rows.ras.toNat + c.rows.cas.toNat)
      (fun o ho => c.cyclesOf_rows hmodel ho) hv
  have hle := h.complete_le_of_forall
    (fun _ => max 1 (c.rows.pre.toNat + c.rows.ras.toNat + c.rows.cas.toNat))
    (fun v hv => max_le_max_left 1 (hgiven v hv).2) hr
  have hge := h.le_complete_of_forall (fun _ => max 1 c.rows.cas.toNat)
    (fun v hv => max_le_max_left 1 (hgiven v hv).1) hr
  unfold Request.stampedLatency
  omega

end RunReport.Timetable

/-- **Recorded latencies are conserved and bounded.** If no number leaves 64 bits in the replay of
a trace on a memory just built, the recorded latencies have the sum of those that the model has
given to the requests at their admission, where none counts less than a cycle. With constant
latencies each request is recorded with its own, and with open rows between those of a hit and of a
conflict. -/
theorem latencies_conserved (c : MemoryConfig) (strategy : Strategy) (trace : List Request)
    (memory : QueuedMemory Service) (hvalid : c.validate = .ok ()) (hbuild : c.build = some memory)
    (hfits : (replay strategy trace memory Silence.mk).1 ≠ .error .overflow) :
    ∃ report last given,
      replay strategy trace memory Silence.mk = (.ok report, last, Silence.mk) ∧
      (report.requests.map Request.unstamped).Perm (trace.map Request.unstamped) ∧
      memory.model.serve (report.requests.map Request.key) = some (given, last.model) ∧
      (∀ r ∈ report.requests, r.completed = true ∧ r.issueCycle < r.completeCycle) ∧
      (report.requests.map Request.stampedLatency).sum = (given.map (max 1)).sum ∧
      ((∀ n ∈ given, n ≠ 0) →
        (report.requests.map Request.stampedLatency).sum = last.totalLatency) ∧
      (c.model = .fixed → ∀ r ∈ report.requests,
        r.stampedLatency = max 1 (c.fixed.of r.direction).toNat) ∧
      (c.model = .rowBuffer → ∀ r ∈ report.requests, max 1 c.rows.cas.toNat ≤ r.stampedLatency ∧
        r.stampedLatency ≤ max 1 (c.rows.pre.toNat + c.rows.ras.toNat + c.rows.cas.toNat)) := by
  have hc := MemoryConfig.usable_of_validate hvalid
  have hstart := MemoryConfig.service_of_build hbuild
  obtain ⟨report, last, visits, hreplay, h⟩ := exists_timetable hc hbuild hfits
  have hsum : (report.requests.map Request.stampedLatency).sum =
      ((visits.map Visit.latency).map (max 1)).sum := by
    rw [List.map_map]
    exact h.sum_stampedLatency
  refine ⟨report, last, visits.map Visit.latency, hreplay, h.perm_trace, h.served, fun r hr => ?_, hsum,
    fun hpositive => ?_, fun hmodel r hr => h.stampedLatency_fixed hc hstart hmodel hr,
    fun hmodel r hr => h.stampedLatency_rows hc hstart hmodel hr⟩
  · exact ⟨h.completed r hr, h.issue_lt_complete hr⟩
  · have hsame : (visits.map Visit.latency).map (max 1) = visits.map Visit.latency :=
      (List.map_congr_left fun n hn =>
        Nat.max_eq_right (Nat.pos_of_ne_zero (hpositive n hn))).trans (List.map_id _)
    rw [hsum, hsame, h.total]

/-- Two reads of one address: the second is a hit. -/
def twoReads : List Request := [.fresh 0 .read, .fresh 0 .read]

theorem runFor_twoReads (bus : Bus) : (Session.runFor UInt64.size (Session.opening
    ((quickRows bus).queues .roundRobin twoReads) (quickMemory bus) Silence.mk).attach).map
      (·.toOption) (·.driver.slots.toList) =
        (some (), [⟨0, .read, 0, 2, true⟩, ⟨0, .read, 1, 3, true⟩]) := by
  cbv

theorem exists_replay_twoReads : ∃ report last,
    replay .roundRobin twoReads (quickMemory {}) Silence.mk = (.ok report, last, Silence.mk) ∧
      report.requests = [⟨0, .read, 0, 2, true⟩, ⟨0, .read, 1, 3, true⟩] := by
  have hrun := runFor_twoReads {}
  rcases hend : Session.runFor UInt64.size (Session.opening
    ((quickRows {}).queues .roundRobin twoReads) (quickMemory {}) Silence.mk).attach
    with ⟨_ | _, last⟩
  · rw [hend] at hrun
    cases (Prod.mk.inj hrun).1
  · rw [hend] at hrun
    refine ⟨last.report, last.memory, ?_, (Prod.mk.inj hrun).2⟩
    exact replay_built (MemoryConfig.usable_of_validate (c := quickRows {}) rfl)
      (m := quickMemory {}) rfl .roundRobin twoReads (Session.run_of_ok hend)

theorem replay_twoReads_ne_overflow :
    (replay .roundRobin twoReads (quickMemory {}) Silence.mk).1 ≠ .error .overflow := by
  obtain ⟨report, last, hreplay, -⟩ := exists_replay_twoReads
  rw [hreplay]
  exact nofun

/-- The second read is a hit and finishes before the first: both are recorded with two cycles. -/
theorem latencies_conserved_twoReads :
    (quickRows {}).validate = .ok () ∧ (quickRows {}).build = some (quickMemory {}) ∧
    (replay .roundRobin twoReads (quickMemory {}) Silence.mk).1 ≠ .error .overflow ∧
    ∃ report last given,
      replay .roundRobin twoReads (quickMemory {}) Silence.mk = (.ok report, last, Silence.mk) ∧
      (quickMemory {}).model.serve (report.requests.map Request.key) = some (given, last.model) ∧
      (report.requests.map Request.stampedLatency).sum = (given.map (max 1)).sum ∧
      ∀ r ∈ report.requests, max 1 1 ≤ r.stampedLatency ∧ r.stampedLatency ≤ max 1 (3 + 2 + 1) := by
  obtain ⟨report, last, given, hreplay, -, hserve, -, hsum, -, -, hrows⟩ :=
    latencies_conserved (quickRows {}) .roundRobin twoReads (quickMemory {}) rfl rfl
      replay_twoReads_ne_overflow
  exact ⟨rfl, rfl, replay_twoReads_ne_overflow, report, last, given, hreplay, hserve, hsum,
    hrows rfl⟩

end MemoryReplay
