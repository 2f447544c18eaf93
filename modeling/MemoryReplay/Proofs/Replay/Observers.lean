import MemoryReplay.Proofs.Replay.Soundness

/-!
# Replays with different observers

An observer that never objects has no part in a replay. So if two observers that never object are
told of the same events, they are told of them in the same order, and what each event keeps between
them a whole replay keeps.

- `Observer.Follows R`: both observers take every event, and each event keeps the relation `R`.
- `Session.Matches R`: sessions that differ in their observers only.
- `run_matches`: replays with such observers have the same result, and match in the end.
- `offer_told`, `settle_told`, `deliver_told`, `step_told`, `run_told`: what the observer was told
  of in a phase that no fault stopped.
-/

namespace MemoryReplay

/-- Both actions succeed, and keep a relation. -/
def Attempt.Agree {ω ω' : Type} (R : ω → ω' → Prop) (x : Attempt ω Unit) (y : Attempt ω' Unit) :
    Prop :=
  ∀ a b, R a b → ∃ a' b', x a = (.ok (), a') ∧ y b = (.ok (), b') ∧ R a' b'

/-- Both observers take every event, and each event keeps a relation between them. -/
structure Observer.Follows {ω ω' : Type} [Observer ω] [Observer ω'] (R : ω → ω' → Prop) : Prop where
  startCycle : ∀ cycle, Attempt.Agree R (Observer.startCycle cycle) (Observer.startCycle cycle)
  issued : ∀ r, Attempt.Agree R (Observer.issued r) (Observer.issued r)
  returned : ∀ r, Attempt.Agree R (Observer.returned r) (Observer.returned r)
  finish : Attempt.Agree R Observer.finish Observer.finish

variable {σ ω ω' : Type} {R : ω → ω' → Prop}

/-- Two sessions differ in their observers only, and these are related. -/
structure Session.Matches (R : ω → ω' → Prop) (s : Session σ ω) (t : Session σ ω') : Prop where
  driver : s.driver = t.driver
  memory : s.memory = t.memory
  observer : R s.observer t.observer

/-- Two sessions have come equally far, and still match. -/
def Progress.Matches (R : ω → ω' → Prop) (p : Progress σ ω) (q : Progress σ ω') : Prop :=
  p.1 = q.1 ∧ p.2.Matches R q.2

/-- A next phase keeps sessions matching if the phase before has. -/
theorem Progress.Matches.andThen {p : Progress σ ω} {q : Progress σ ω'}
    {f : Session σ ω → Progress σ ω} {g : Session σ ω' → Progress σ ω'}
    (h : Progress.Matches R p q)
    (hnext : ∀ s t, s.Matches R t → Progress.Matches R (f s) (g t)) :
    Progress.Matches R (p.andThen f) (q.andThen g) := by
  obtain ⟨hresult, hs⟩ := h
  rcases p with ⟨_ | _, s⟩ <;> rcases q with ⟨_ | _, t⟩
  · exact ⟨hresult, hs⟩
  · cases hresult
  · cases hresult
  · exact hnext s t hs

namespace Session

theorem tell_matches {x : Attempt ω Unit} {y : Attempt ω' Unit} (hxy : Attempt.Agree R x y)
    {s : Session σ ω} {t : Session σ ω'} (h : s.Matches R t) :
    Progress.Matches R (tell x s) (tell y t) := by
  obtain ⟨a, b, hx, hy, hab⟩ := hxy _ _ h.observer
  unfold tell
  rw [hx, hy]
  exact ⟨rfl, h.driver, h.memory, hab⟩

variable [MemorySystem σ] [Observer ω] [Observer ω']

theorem offer_matches (hR : Observer.Follows R) (k : Fin channels) {s : Session σ ω}
    {t : Session σ ω'} (h : s.Matches R t) : Progress.Matches R (s.offer k) (t.offer k) := by
  obtain ⟨driver, memory, observer⟩ := s
  obtain ⟨driver', memory', observer'⟩ := t
  obtain ⟨rfl, rfl, hobserver⟩ := h
  unfold offer
  dsimp only
  split
  · exact ⟨rfl, rfl, rfl, hobserver⟩
  · next head rest _ =>
    split
    · exact ⟨rfl, rfl, rfl, hobserver⟩
    · exact ⟨rfl, rfl, rfl, hobserver⟩
    · split
      · exact ⟨rfl, rfl, rfl, hobserver⟩
      · exact tell_matches (hR.issued _) ⟨rfl, rfl, hobserver⟩

theorem offers_matches (hR : Observer.Follows R) (ks : List (Fin channels)) :
    ∀ {s : Session σ ω} {t : Session σ ω'}, s.Matches R t →
      Progress.Matches R (offers ks s) (offers ks t) := by
  induction ks with
  | nil => exact fun h => ⟨rfl, h⟩
  | cons k rest ih => exact fun h => (offer_matches hR k h).andThen fun _ _ => ih

omit [Observer ω] [Observer ω'] in
theorem advance_matches {s : Session σ ω} {t : Session σ ω'} (h : s.Matches R t) :
    Progress.Matches R s.advance t.advance := by
  obtain ⟨driver, memory, observer⟩ := s
  obtain ⟨driver', memory', observer'⟩ := t
  obtain ⟨rfl, rfl, hobserver⟩ := h
  unfold advance
  dsimp only
  split <;> exact ⟨rfl, rfl, rfl, hobserver⟩

omit [MemorySystem σ] in
theorem settle_matches (hR : Observer.Follows R) (key : Completion) {s : Session σ ω}
    {t : Session σ ω'} (h : s.Matches R t) : Progress.Matches R (s.settle key) (t.settle key) := by
  obtain ⟨driver, memory, observer⟩ := s
  obtain ⟨driver', memory', observer'⟩ := t
  obtain ⟨rfl, rfl, hobserver⟩ := h
  unfold settle
  dsimp only
  split
  · exact ⟨rfl, rfl, rfl, hobserver⟩
  · exact tell_matches (hR.returned _) ⟨rfl, rfl, hobserver⟩

omit [MemorySystem σ] in
theorem settles_matches (hR : Observer.Follows R) (keys : List Completion) :
    ∀ {s : Session σ ω} {t : Session σ ω'}, s.Matches R t →
      Progress.Matches R (settles keys s) (settles keys t) := by
  induction keys with
  | nil => exact fun h => ⟨rfl, h⟩
  | cons key rest ih => exact fun h => (settle_matches hR key h).andThen fun _ _ => ih

omit [MemorySystem σ] in
theorem deliver_matches (hR : Observer.Follows R) {s : Session σ ω} {t : Session σ ω'}
    (h : s.Matches R t) : Progress.Matches R s.deliver t.deliver := by
  obtain ⟨driver, memory, observer⟩ := s
  obtain ⟨driver', memory', observer'⟩ := t
  obtain ⟨rfl, rfl, hobserver⟩ := h
  unfold deliver
  dsimp only
  split
  · exact ⟨rfl, rfl, rfl, hobserver⟩
  · refine Progress.Matches.andThen (tell_matches (hR.startCycle _) ⟨rfl, rfl, hobserver⟩) ?_
    exact fun s t => settles_matches hR _

theorem step_matches (hR : Observer.Follows R) {s : Session σ ω} {t : Session σ ω'}
    (h : s.Matches R t) : Progress.Matches R s.step t.step := by
  unfold step
  rw [h.driver]
  refine (tell_matches (hR.startCycle _) h).andThen fun s t h => ?_
  refine (offers_matches hR _ h).andThen fun s t h => ?_
  exact (advance_matches h).andThen fun s t => deliver_matches hR

theorem runFor_matches (hR : Observer.Follows R) (left : Nat) :
    ∀ {s : Session σ ω} {t : Session σ ω'}, s.Matches R t →
      Progress.Matches R (runFor left s) (runFor left t) := by
  induction left with
  | zero =>
    intro s t h
    unfold runFor
    rw [h.driver]
    split <;> exact ⟨rfl, h⟩
  | succ left ih =>
    intro s t h
    unfold runFor
    rw [h.driver]
    split
    · exact ⟨rfl, h⟩
    · exact (step_matches hR h).andThen fun _ _ => ih

/-- **Replays with observers that never object end the same way**, and match in the end. -/
theorem run_matches (hR : Observer.Follows R) {s : Session σ ω} {t : Session σ ω'}
    (h : s.Matches R t) : s.run.1 = t.run.1 ∧ s.run.2.Matches R t.run.2 := by
  have hattach : s.attach.Matches R t.attach :=
    ⟨h.driver, congrArg MemorySystem.attach h.memory, h.observer⟩
  have hcomplete : Progress.Matches R s.complete t.complete := by
    unfold complete
    rw [h.driver]
    exact (runFor_matches hR _ hattach).andThen fun _ _ => tell_matches hR.finish
  unfold run
  generalize s.complete = p at hcomplete ⊢
  generalize t.complete = q at hcomplete ⊢
  obtain ⟨hresult, hmatches⟩ := hcomplete
  rcases p with ⟨e | _, u⟩ <;> rcases q with ⟨e' | _, v⟩
  · cases hresult
    exact ⟨rfl, hmatches⟩
  · cases hresult
  · cases hresult
  · refine ⟨congrArg Except.ok ?_, hmatches⟩
    -- a report is about books and memory
    show u.report = v.report
    unfold report
    rw [hmatches.driver, hmatches.memory]

/-! ### What an observer is told -/

variable {s t : Session σ ω}

omit [MemorySystem σ] [Observer ω] [Observer ω'] in
theorem tell_told {event : Attempt ω Unit} (h : tell event s = .ok t) :
    event s.observer = (.ok (), t.observer) := by
  unfold tell at h
  split at h
  · next hevent =>
    obtain rfl := Progress.ok_inj h
    exact hevent
  · cases h

omit [Observer ω'] in
/-- Of an offer the observer is told if the memory takes it. -/
theorem offer_told {k : Fin channels} (h : s.offer k = .ok t) :
    (t.driver = s.driver ∧ t.observer = s.observer) ∨
    ∃ head rest, s.driver.queues.get k = head :: rest ∧ t.driver = s.driver.issue k head rest ∧
      Observer.issued (head.markIssued s.driver.cycle) s.observer = (.ok (), t.observer) := by
  unfold offer at h
  split at h
  · obtain rfl := Progress.ok_inj h
    exact .inl ⟨rfl, rfl⟩
  · next head rest hq =>
    split at h
    · cases h
    · obtain rfl := Progress.ok_inj h
      exact .inl ⟨rfl, rfl⟩
    · split at h
      · cases h
      · have hevent := tell_told h
        exact .inr ⟨head, rest, hq, (tell_eq_ok h).1, hevent⟩

omit [MemorySystem σ] [Observer ω'] in
theorem settle_told {key : Completion} (h : s.settle key = .ok t) :
    ∃ r, s.driver.match? key = (some r, t.driver) ∧
      Observer.returned r s.observer = (.ok (), t.observer) := by
  unfold settle at h
  dsimp only at h
  split at h
  · cases h
  · next r hr =>
    have hevent := tell_told h
    refine ⟨r, ?_, hevent⟩
    rw [(tell_eq_ok h).1, ← hr]

omit [MemorySystem σ] [Observer ω'] in
/-- The observer is told of a cycle again if there are completions in it. -/
theorem deliver_told (h : s.deliver = .ok t) :
    ∃ u : Session σ ω, u.driver = { s.driver with mailbox := [] } ∧
      settles s.driver.mailbox u = .ok t ∧
      ((s.driver.mailbox = [] ∧ u.observer = s.observer) ∨
        Observer.startCycle s.driver.cycle s.observer = (.ok (), u.observer)) := by
  unfold deliver at h
  dsimp only at h
  split at h
  · next hnil =>
    rw [hnil]
    exact ⟨{ s with driver := { s.driver with mailbox := [] } }, rfl, h, .inl ⟨rfl, rfl⟩⟩
  · obtain ⟨u, hu, ht⟩ := Progress.andThen_eq_ok h
    have hevent := tell_told hu
    exact ⟨u, (tell_eq_ok hu).1, ht, .inr hevent⟩

omit [Observer ω'] in
/-- A step begins with telling the observer of the cycle. -/
theorem step_told (h : s.step = .ok t) :
    ∃ u v w : Session σ ω, u.driver = s.driver ∧
      Observer.startCycle s.driver.cycle s.observer = (.ok (), u.observer) ∧
      offers (List.finRange channels) u = .ok v ∧ v.advance = .ok w ∧ w.deliver = .ok t := by
  obtain ⟨u, hu, h⟩ := Progress.andThen_eq_ok h
  obtain ⟨v, hv, h⟩ := Progress.andThen_eq_ok h
  obtain ⟨w, hw, ht⟩ := Progress.andThen_eq_ok h
  exact ⟨u, v, w, (tell_eq_ok hu).1, tell_told hu, hv, hw, ht⟩

omit [Observer ω'] in
/-- At the end the observer is told that the replay is over. -/
theorem run_told {report : RunReport} (h : s.run = (.ok report, t)) :
    ∃ n u, steps n s.attach = .ok u ∧ u.driver.isDone = true ∧ t.driver = u.driver ∧
      report = t.report ∧ Observer.finish u.observer = (.ok (), t.observer) := by
  unfold run at h
  split at h
  · next v hcomplete =>
    cases h
    obtain ⟨u, hu, htell⟩ := Progress.andThen_eq_ok hcomplete
    obtain ⟨n, -, hsteps, hdone, -⟩ := runFor_eq_ok hu
    exact ⟨n, u, hsteps, hdone, (tell_eq_ok htell).1, rfl, tell_told htell⟩
  · cases h

end Session

end MemoryReplay
