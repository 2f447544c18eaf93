import MemoryReplay.CommandLine.Program
import MemoryReplay.Proofs.Config.Mapping
import MemoryReplay.Proofs.Pattern.Sweep
import MemoryReplay.Proofs.Replay.Attribution

/-!
# Sweeps that stop midway

A sweep is checked before its first replay. The check looks at the largest start word, but not at
the last address of the stage from there, so a sweep that has passed it can still come to a start
from which the stage leaves 64 bits.

- `exists_of_sweepTotals`, `of_sweepTotals_eq_ok`, `sweepTotals_cases`: how far the replays of a
  sweep come.
- `of_sweepReplay`, `exists_sweepReplay`: when one of them fails, and when it does not.
- `sweepAll_eq`: the command, for a sweep that has passed its check.
- `accepted_sweep_stops`: which sweeps stop after their check, and at which start.
-/

namespace MemoryReplay

namespace CommandLine

/-- The start words that a sweep replays. -/
def SweepOptions.taken (o : SweepOptions) (starts : List UInt64) : List UInt64 :=
  match o.limit with
  | some n => starts.take n.toNat
  | none => starts

namespace Program

open StageVariant

/-! ### Replays one after the other -/

section

variable {replayFrom : UInt64 → Outcome RunError (Nat × Float)} {totals : Nat × Float}
  {starts : List UInt64}

theorem sweepTotals_cons {first : UInt64} {more : Nat} {mean : Float}
    (hfirst : replayFrom first = .ok (more, mean)) (hfits : totals.1 + more < UInt64.size) :
    sweepTotals replayFrom totals (first :: starts) =
      sweepTotals replayFrom (totals.1 + more, totals.2 + mean) starts := by
  have hcycles : Word.fits (totals.1 + more) = some (totals.1 + more) := if_pos hfits
  obtain ⟨cycles, latency⟩ := totals
  rw [sweepTotals, hfirst]
  dsimp only [bind, Except.bind] at hcycles ⊢
  rw [hcycles]
  rfl

theorem sweepTotals_cons_error {first : UInt64} {fault : Fault RunError}
    (hfirst : replayFrom first = .error fault) :
    sweepTotals replayFrom totals (first :: starts) = .error fault := by
  obtain ⟨cycles, latency⟩ := totals
  rw [sweepTotals, hfirst]
  rfl

/-- A sweep that fails has replayed all starts before one of them, and has failed there. -/
theorem exists_of_sweepTotals {e : RunError}
    (h : sweepTotals replayFrom totals starts = .error (.reported e)) :
    ∃ before s after, starts = before ++ s :: after ∧
      (∀ t ∈ before, ∃ result, replayFrom t = .ok result) ∧
      replayFrom s = .error (.reported e) := by
  induction starts generalizing totals with
  | nil => cases h
  | cons first rest ih =>
    cases hfirst : replayFrom first with
    | error fault =>
      rw [sweepTotals_cons_error hfirst] at h
      obtain rfl := Except.error.inj h
      exact ⟨[], first, rest, rfl, fun _ ht => absurd ht List.not_mem_nil, hfirst⟩
    | ok result =>
      obtain ⟨cycles, latency⟩ := totals
      rw [sweepTotals, hfirst] at h
      rcases Outcome.bind_eq_error_iff.mp h with h | ⟨_, -, h⟩
      · cases h
      rcases Outcome.bind_eq_error_iff.mp h with h | ⟨total, -, h⟩
      · exact absurd h Outcome.ofChecked_ne_reported
      obtain ⟨before, s, after, rfl, hbefore, hs⟩ := ih h
      refine ⟨first :: before, s, after, rfl, fun t ht => ?_, hs⟩
      rcases List.mem_cons.mp ht with rfl | ht
      · exact ⟨result, hfirst⟩
      · exact hbefore t ht

/-- A sweep that has its totals has replayed all starts. -/
theorem of_sweepTotals_eq_ok {totals' : Nat × Float}
    (h : sweepTotals replayFrom totals starts = .ok totals') :
    ∀ s ∈ starts, ∃ result, replayFrom s = .ok result := by
  induction starts generalizing totals with
  | nil => exact fun _ hs => absurd hs List.not_mem_nil
  | cons first rest ih =>
    obtain ⟨cycles, latency⟩ := totals
    unfold sweepTotals at h
    obtain ⟨result, hfirst, h⟩ := Outcome.bind_eq_ok_iff.mp h
    obtain ⟨total, -, h⟩ := Outcome.bind_eq_ok_iff.mp h
    intro s hs
    rcases List.mem_cons.mp hs with rfl | hs
    · exact ⟨result, hfirst⟩
    · exact ih h s hs

/-- With short replays, a sweep has its totals or the error of a replay. -/
theorem sweepTotals_cases {limit : Nat} {P : RunError → Prop}
    (hall : ∀ s ∈ starts, (∃ cycles latency, replayFrom s = .ok (cycles, latency) ∧
      cycles ≤ limit) ∨ ∃ e, replayFrom s = .error (.reported e) ∧ P e)
    (hfits : totals.1 + starts.length * limit < UInt64.size) :
    (∃ totals', sweepTotals replayFrom totals starts = .ok totals') ∨
      ∃ e, sweepTotals replayFrom totals starts = .error (.reported e) ∧ P e := by
  induction starts generalizing totals with
  | nil => exact .inl ⟨totals, rfl⟩
  | cons first rest ih =>
    rcases hall first List.mem_cons_self with ⟨more, mean, hfirst, hmore⟩ | ⟨e, hfirst, he⟩
    · rw [List.length_cons, Nat.succ_mul] at hfits
      rw [sweepTotals_cons hfirst (by omega)]
      exact ih (fun s hs => hall s (List.mem_cons_of_mem _ hs)) (by dsimp only; omega)
    · exact .inr ⟨e, sweepTotals_cons_error hfirst, he⟩

end

/-! ### One replay -/

variable {variant : StageVariant} {units : UInt64} {g : StageGeometry} {starts : List UInt64}
  {permutation : Option BitPermutation} {o : SweepOptions} {c : Config} {s : UInt64}

/-- A replay has the configuration to blame only if the stage has. -/
theorem of_sweepReplay {e : ConfigError}
    (h : sweepReplay variant g permutation c s = .error (.reported (.config e))) :
    ∃ e', variant.generate s g = .error (.reported e') ∧ e = .parameter e' := by
  unfold sweepReplay at h
  rcases Outcome.bind_eq_error_iff.mp h with h | ⟨raw, -, h⟩
  · obtain ⟨e', hraw, he⟩ := Outcome.mapReported_eq_reported_iff.mp h
    cases he
    exact ⟨e', hraw, rfl⟩
  -- what comes after the stage has other errors
  rcases Outcome.bind_eq_error_iff.mp h with h | ⟨memory, -, h⟩
  · exact absurd h Outcome.ofChecked_ne_reported
  rcases Outcome.bind_eq_error_iff.mp h with h | ⟨report, -, h⟩
  · obtain ⟨e', -, he⟩ := Outcome.mapReported_eq_reported_iff.mp h
    cases he
  rcases Outcome.bind_eq_error_iff.mp h with h | ⟨latency, -, h⟩
  · exact absurd h Outcome.ofChecked_ne_reported
  · cases h

theorem sweepReplay_of_error {e : ParameterError}
    (h : variant.generate s g = .error (.reported e)) :
    sweepReplay variant g permutation c s = .error (.reported (.config (.parameter e))) := by
  unfold sweepReplay
  rw [h]
  rfl

/-- A stage that has its requests is replayed, with as many requests. -/
theorem sweepReplay_of_generate (permutation : Option BitPermutation) {raw : List Request}
    {memory : QueuedMemory Service} (hraw : variant.generate s g = .ok raw)
    (hbuild : c.memory.build = some memory) :
    ∃ trace : List Request, trace.length = raw.length ∧
      sweepReplay variant g permutation c s = do
        let report ← Outcome.mapReported RunError.sim (replay c.strategy trace memory Silence.mk).1
        return (report.cycles, ← Outcome.ofChecked report.averageLatency) := by
  unfold sweepReplay
  rw [hraw, hbuild]
  cases permutation with
  | none => exact ⟨raw, rfl, rfl⟩
  | some p => exact ⟨p.applyAll raw, List.length_map _, rfl⟩

/-- The replay of a stage that is short enough comes to its end, and in time. -/
theorem exists_sweepReplay {raw : List Request} (hc : c.memory.Usable)
    (hraw : variant.generate s g = .ok raw)
    (hfits : (raw.length + 1) * c.memory.latencyBound < UInt64.size) :
    ∃ cycles latency, sweepReplay variant g permutation c s = .ok (cycles, latency) ∧
      cycles ≤ raw.length * c.memory.latencyBound := by
  obtain ⟨memory, hbuild⟩ := MemoryConfig.exists_build hc
  obtain ⟨trace, hlength, hsteps⟩ := sweepReplay_of_generate permutation hraw hbuild
  rw [← hlength] at hfits
  obtain ⟨report, last, hreplay, hcycles⟩ :=
    exists_replay_of_fits hc hbuild c.strategy trace hfits
  have hends : (replay c.strategy trace memory Silence.mk).1 ≠ .error .overflow := by
    rw [hreplay]
    exact nofun
  obtain ⟨report', last', visits, hreplay', h⟩ := exists_timetable hc hbuild hends
  obtain ⟨hreport, -⟩ := Prod.mk.inj (hreplay'.symm.trans hreplay)
  obtain rfl := Except.ok.inj hreport
  have hrequests : report'.requests.length = trace.length := by
    have hperm := h.perm_trace.length_eq
    rwa [List.length_map, List.length_map] at hperm
  have hsum : report'.latencies.sum < UInt64.size := by
    have hle := h.sum_latencies_le hc (MemoryConfig.service_of_build hbuild)
    rw [hrequests] at hle
    refine Nat.lt_of_le_of_lt hle ?_
    exact Nat.lt_of_le_of_lt (Nat.mul_le_mul_right _ (Nat.le_succ _)) hfits
  obtain ⟨mean, hmean⟩ := report'.exists_averageLatency hsum
  refine ⟨report'.cycles, mean, ?_, hlength ▸ hcycles⟩
  rw [hsteps, hreplay]
  show (do return (report'.cycles, ← Outcome.ofChecked report'.averageLatency)) = _
  rw [hmean]
  rfl

/-! ### The command -/

/-- A configuration that passes its check has a mapping and a memory. -/
theorem of_validate (hc : c.validate = .ok ()) :
    (∃ permutation, c.mapping.permutation = .ok permutation) ∧ c.memory.Usable := by
  obtain ⟨hpermutation, hmemory⟩ := Config.exists_of_validate hc
  exact ⟨hpermutation, MemoryConfig.usable_of_validate hmemory⟩

section

variable (hc : c.mapping.permutation = .ok permutation)
  (hg : c.workload.stageGeometry?.getD {} = g)
  (h : o.variant.sweepStarts o.butterflyUnits g = .ok starts)

include hc hg h

/-- What the command makes of a sweep that has passed its check. -/
theorem sweepAll_eq : sweepAll o c = do
    let totals ← sweepTotals (sweepReplay o.variant g permutation c) (0, 0.0) (o.taken starts)
    return ((o.taken starts).length, totals) := by
  unfold sweepAll SweepOptions.taken
  dsimp only
  rw [hc, hg]
  cases o.limit with
  | none =>
    dsimp only
    rw [h]
    rfl
  | some n =>
    dsimp only
    rw [firstSweepStarts_eq h]
    rfl

/-- Such a sweep has the configuration to blame only after the replays of all starts before one from
which the stage leaves 64 bits. -/
theorem of_sweepAll_stops {e : ConfigError} (hstop : sweepAll o c = .error (.reported (.config e))) :
    ∃ before s after, o.taken starts = before ++ s :: after ∧
      (∀ t ∈ before, ∃ result, sweepReplay o.variant g permutation c t = .ok result) ∧
      UInt64.size ≤ o.variant.exactEnd s.toNat g ∧
      (e = .parameter ⟨"start", .addressOverflow⟩ ∨
        e = .parameter ⟨"word_shift", .addressOverflow⟩) := by
  obtain ⟨-, -, hvalid, -, -⟩ := of_sweepStarts_eq_ok h
  rw [sweepAll_eq hc hg h] at hstop
  obtain hstop | ⟨totals, -, hstop⟩ := Outcome.bind_eq_error_iff.mp hstop
  · obtain ⟨before, s, after, hsplit, hbefore, hs⟩ := exists_of_sweepTotals hstop
    obtain ⟨e', hgenerate, rfl⟩ := of_sweepReplay hs
    obtain ⟨hend, he⟩ := of_generate_reported hvalid hgenerate
    refine ⟨before, s, after, hsplit, hbefore, hend, ?_⟩
    exact he.imp (congrArg _) (congrArg _)
  · cases hstop

/-- If its replays are short, it comes to its end or has the configuration to blame. -/
theorem sweepAll_cases (husable : c.memory.Usable) (hkept : o.variant.requestCount g ≤ maxKept)
    (hshort : (o.variant.requestCount g + 1) * c.memory.latencyBound < UInt64.size)
    (hfew : (o.taken starts).length * (o.variant.requestCount g * c.memory.latencyBound) <
      UInt64.size) :
    ((∃ result, sweepAll o c = .ok result) ∧
        ∀ s ∈ o.taken starts, o.variant.exactEnd s.toNat g < UInt64.size) ∨
      ∃ e, sweepAll o c = .error (.reported (.config e)) := by
  obtain ⟨-, -, hvalid, -, -⟩ := of_sweepStarts_eq_ok h
  have hreplays : ∀ s ∈ o.taken starts, (∃ cycles latency,
      sweepReplay o.variant g permutation c s = .ok (cycles, latency) ∧
      cycles ≤ o.variant.requestCount g * c.memory.latencyBound) ∨
      ∃ e, sweepReplay o.variant g permutation c s = .error (.reported e) ∧
        ∃ e', e = .config e' := by
    intro s _
    by_cases hend : o.variant.exactEnd s.toNat g < UInt64.size
    · rw [← length_requests (s := s.toNat)] at hshort ⊢
      exact .inl (exists_sweepReplay husable (generate_of_kept hvalid hend hkept) hshort)
    · obtain ⟨e, he⟩ := exists_generate_error hvalid (Nat.le_of_not_lt hend)
      exact .inr ⟨_, sweepReplay_of_error he, _, rfl⟩
  have hfits : ((0, 0.0) : Nat × Float).1 + (o.taken starts).length *
      (o.variant.requestCount g * c.memory.latencyBound) < UInt64.size := by rwa [Nat.zero_add]
  rw [sweepAll_eq hc hg h]
  rcases sweepTotals_cases hreplays hfits with ⟨totals, htotals⟩ | ⟨_, htotals, e, rfl⟩
  · refine .inl ⟨⟨((o.taken starts).length, totals), by rw [htotals]; rfl⟩, fun s hs => ?_⟩
    obtain ⟨result, hs⟩ := of_sweepTotals_eq_ok htotals s hs
    by_contra hend
    obtain ⟨e, he⟩ := exists_generate_error hvalid (Nat.le_of_not_lt hend)
    rw [sweepReplay_of_error he] at hs
    cases hs
  · exact .inr ⟨e, by rw [htotals]; rfl⟩

end

/-- **An accepted sweep has all its stages if and only if the one from its largest start fits**, and
is not too long to be kept. A start word has its stage if the last address fits; if it does not, the
start or the shift is to blame. The check of the sweep does not see to that. Where the stage leaves
64 bits from a start that is replayed, the command has the configuration to blame, and only after
the replays of all starts before it. -/
theorem accepted_sweep_stops (h : variant.sweepStarts units g = .ok starts) :
    (∀ s ∈ starts, variant.generate s g =
      if UInt64.size ≤ variant.exactWord s.toNat g (variant.lastPosition g) then
        .error (.reported ⟨"start", .addressOverflow⟩)
      else if UInt64.size ≤ variant.exactEnd s.toNat g then
        .error (.reported ⟨"word_shift", .addressOverflow⟩)
      else if variant.requestCount g ≤ maxKept then .ok (variant.requests s.toNat g)
      else .error .overflow) ∧
    (starts ≠ [] → ((∀ s ∈ starts, ∃ trace, variant.generate s g = .ok trace) ↔
      variant.exactEnd (variant.sweepReach (g.rowElements / units) g) g < UInt64.size ∧
        variant.requestCount g ≤ maxKept)) ∧
    ∀ o c, o.variant = variant → o.butterflyUnits = units →
      c.workload.stageGeometry?.getD {} = g → c.validate = .ok () →
      ∃ permutation, c.mapping.permutation = .ok permutation ∧
        (∀ e, sweepAll o c = .error (.reported (.config e)) →
          ∃ before s after, o.taken starts = before ++ s :: after ∧
            (∀ t ∈ before, ∃ result, sweepReplay variant g permutation c t = .ok result) ∧
            UInt64.size ≤ variant.exactEnd s.toNat g ∧
            (e = .parameter ⟨"start", .addressOverflow⟩ ∨
              e = .parameter ⟨"word_shift", .addressOverflow⟩)) ∧
        (variant.requestCount g ≤ maxKept →
          (variant.requestCount g + 1) * c.memory.latencyBound < UInt64.size →
          (o.taken starts).length * (variant.requestCount g * c.memory.latencyBound) < UInt64.size →
          ((∃ result, sweepAll o c = .ok result) ↔
            ∀ s ∈ o.taken starts, variant.exactEnd s.toNat g < UInt64.size) ∧
          ((∃ e, sweepAll o c = .error (.reported (.config e))) ↔
            ∃ s ∈ o.taken starts, UInt64.size ≤ variant.exactEnd s.toNat g)) := by
  obtain ⟨-, -, hvalid, hreach, hstarts⟩ := of_sweepStarts_eq_ok h
  refine ⟨fun s _ => generate_eq hvalid variant s, fun hne => ⟨fun hall => ?_, ?_⟩, ?_⟩
  · -- the largest start word is one of them
    have hlast : variant.lastSweepPosition (g.rowElements / units) g ∈
        variant.sweepPositions (g.rowElements / units) g := by
      refine lastSweepPosition_mem fun hnil => hne ?_
      rw [hstarts, hnil, List.map_nil]
    have hmem : UInt64.ofNat (variant.sweepReach (g.rowElements / units) g) ∈ starts := by
      rw [hstarts]
      exact List.mem_map_of_mem hlast
    obtain ⟨trace, htrace⟩ := hall _ hmem
    obtain ⟨hend, hkept, -⟩ := (generate_eq_ok_iff hvalid).mp htrace
    rw [UInt64.toNat_ofNat_of_lt' hreach] at hend
    exact ⟨hend, hkept⟩
  · rintro ⟨hend, hkept⟩ s hs
    rw [hstarts] at hs
    obtain ⟨p, hp, rfl⟩ := List.mem_map.mp hs
    have hle := exactStart_le_sweepReach hp
    refine ⟨_, generate_of_kept hvalid ?_ hkept⟩
    rw [UInt64.toNat_ofNat_of_lt' (Nat.lt_of_le_of_lt hle hreach)]
    exact Nat.lt_of_le_of_lt (exactEnd_mono hle) hend
  · rintro o c rfl rfl hg hc
    obtain ⟨⟨permutation, hpermutation⟩, husable⟩ := of_validate hc
    refine ⟨permutation, hpermutation, fun e hstop => of_sweepAll_stops hpermutation hg h hstop,
      fun hkept hshort hfew => ?_⟩
    rcases sweepAll_cases hpermutation hg h husable hkept hshort hfew
      with ⟨⟨result, hresult⟩, hall⟩ | ⟨e, he⟩
    · refine ⟨⟨fun _ => hall, fun _ => ⟨result, hresult⟩⟩, ⟨?_, ?_⟩⟩
      · rintro ⟨e, he⟩
        cases hresult.symm.trans he
      · rintro ⟨s, hs, hend⟩
        exact absurd (hall s hs) (Nat.not_lt.mpr hend)
    · obtain ⟨before, s, after, hsplit, -, hend, -⟩ := of_sweepAll_stops hpermutation hg h he
      have hs : s ∈ o.taken starts := by
        rw [hsplit]
        exact List.mem_append_right _ List.mem_cons_self
      refine ⟨⟨?_, fun hall => ?_⟩, ⟨fun _ => ⟨s, hs, hend⟩, fun _ => ⟨e, he⟩⟩⟩
      · rintro ⟨result, hresult⟩
        cases hresult.symm.trans he
      · exact absurd (hall s hs) (Nat.not_lt.mpr hend)

/-- A tiling with one channel and one iteration, whose addresses are so wide that only the first two
words have one. -/
def topWords : StageGeometry where
  channels := 1
  iterations := 1
  rowElements := 4
  subtiles := 1
  channelSpan := 1
  wordShift := 63
  irRowPitch := 1

/-- A sweep over this tiling. -/
def topSweep : Config := { workload := .stage icWiseFirstHalf 0 topWords }

/-- Four start words are accepted, and not all of them have their stage. So the command stops at one of
them, after the replays of those before it; of the first two alone it makes all replays. -/
theorem accepted_sweep_stops_topWords : icWiseFirstHalf.sweepStarts 1 topWords = .ok [0, 1, 2, 3] ∧
    icWiseFirstHalf.generate 2 topWords = .error (.reported ⟨"word_shift", .addressOverflow⟩) ∧
    (¬ ∀ s ∈ [0, 1, 2, 3], ∃ trace, icWiseFirstHalf.generate s topWords = .ok trace) ∧
    topSweep.validate = .ok () ∧
    (∃ e, sweepAll {} topSweep = .error (.reported (.config e)) ∧
      ∃ before s after, [0, 1, 2, 3] = before ++ s :: after ∧
        (∀ t ∈ before, ∃ result,
          sweepReplay icWiseFirstHalf topWords none topSweep t = .ok result) ∧
        UInt64.size ≤ icWiseFirstHalf.exactEnd s.toNat topWords) ∧
    ∃ result, sweepAll { limit := some 2 } topSweep = .ok result := by
  have hstarts : icWiseFirstHalf.sweepStarts 1 topWords = .ok [0, 1, 2, 3] := rfl
  have hvalid : topSweep.validate = .ok () := rfl
  obtain ⟨hgenerate, hall, hcommand⟩ := accepted_sweep_stops hstarts
  refine ⟨hstarts, ?_, fun htraces => ?_, hvalid, ?_, ?_⟩
  · rw [hgenerate 2 (by decide), if_neg (by decide), if_pos (by decide)]
  · have hend := ((hall (by decide)).mp htraces).1
    exact absurd hend (by decide)
  · obtain ⟨permutation, hpermutation, hstop, hends⟩ := hcommand {} topSweep rfl rfl rfl hvalid
    obtain rfl : none = permutation := Except.ok.inj hpermutation
    have hthird : ∃ s ∈ ([0, 1, 2, 3] : List UInt64),
        UInt64.size ≤ icWiseFirstHalf.exactEnd s.toNat topWords := ⟨2, by decide, by decide⟩
    obtain ⟨e, he⟩ := (hends (by decide) (by decide) (by decide)).2.mpr hthird
    obtain ⟨before, s, after, hsplit, hbefore, hend, -⟩ := hstop e he
    exact ⟨e, he, before, s, after, hsplit, hbefore, hend⟩
  · obtain ⟨-, -, -, hends⟩ := hcommand { limit := some 2 } topSweep rfl rfl rfl hvalid
    have htwo : ∀ s ∈ ([0, 1] : List UInt64),
        icWiseFirstHalf.exactEnd s.toNat topWords < UInt64.size := by
      intro s hs
      rcases List.mem_pair.mp hs with rfl | rfl
      · decide
      · decide
    exact (hends (by decide) (by decide) (by decide)).1.mpr htwo

/-- Two of its replays are made before the shift is found to be too wide. -/
theorem sweep_stops_topSweep :
    icWiseFirstHalf.sweepStarts 1 topWords = .ok [0, 1, 2, 3] ∧
    icWiseFirstHalf.generate 2 topWords = .error (.reported ⟨"word_shift", .addressOverflow⟩) ∧
    topSweep.validate = .ok () ∧
    (∀ s ∈ [0, 1], ∃ result, sweepReplay icWiseFirstHalf topWords none topSweep s = .ok result) ∧
    sweepAll {} topSweep =
      .error (.reported (.config (.parameter ⟨"word_shift", .addressOverflow⟩))) := by
  have hvalid : topSweep.validate = .ok () := rfl
  obtain ⟨-, husable⟩ := of_validate hvalid
  have hstarts : icWiseFirstHalf.sweepStarts 1 topWords = .ok [0, 1, 2, 3] := rfl
  have hthird : icWiseFirstHalf.generate 2 topWords =
      .error (.reported ⟨"word_shift", .addressOverflow⟩) := rfl
  have hreplays : ∀ s ∈ [0, 1], ∃ cycles latency,
      sweepReplay icWiseFirstHalf topWords none topSweep s = .ok (cycles, latency) ∧
        cycles ≤ 10 := by
    intro s hs
    obtain ⟨a, ha⟩ : ∃ a, icWiseFirstHalf.generate s topWords = .ok [.fresh a .read] := by
      rcases List.mem_pair.mp hs with rfl | rfl
      · exact ⟨0, rfl⟩
      · exact ⟨0x8000000000000000, rfl⟩
    have hsmall : (1 + 1) * topSweep.memory.latencyBound < UInt64.size := by decide
    exact exists_sweepReplay husable ha hsmall
  obtain ⟨cycles, latency, hfirst, hcycles⟩ := hreplays 0 (by decide)
  obtain ⟨more, mean, hsecond, hmore⟩ := hreplays 1 (by decide)
  refine ⟨hstarts, hthird, hvalid, fun s hs => ?_, ?_⟩
  · obtain ⟨cycles, latency, hs, -⟩ := hreplays s hs
    exact ⟨(cycles, latency), hs⟩
  · rw [sweepAll_eq (c := topSweep) (o := {}) rfl rfl hstarts]
    show (do
      let totals ← sweepTotals (sweepReplay icWiseFirstHalf topWords none topSweep) (0, 0.0)
        [0, 1, 2, 3]
      return ([0, 1, 2, 3].length, totals)) = _
    have hsize : 20 < UInt64.size := by decide
    rw [sweepTotals_cons hfirst (by dsimp only; omega), sweepTotals_cons hsecond (by dsimp only; omega),
      sweepTotals_cons_error (sweepReplay_of_error hthird)]
    rfl

end Program

end CommandLine

end MemoryReplay
