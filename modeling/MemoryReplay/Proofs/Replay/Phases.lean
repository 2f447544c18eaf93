import MemoryReplay.Proofs.Replay.Ledger
import MemoryReplay.Replay.Session

/-!
# The phases of a step

What one phase of a step can do, whatever the memory and the observer are. Later proofs cite the
lemmas of this module and do not open a phase again.

- `Driver.Stable P`: `P` survives an admission, a moved clock and a completion. `Stable.step`:
  then it survives a step, however the step ends.
- `offer_eq_ok`, `advance_eq_ok`, `settle_eq_ok`, `deliver_eq_ok`, `step_eq_ok`: what a phase has
  done that no fault stopped. `offers_invariant`, `settles_invariant`: loops over such phases.
- `quiet_step`, `quiet_offers`, `quiet_cycle`: the phases of a session that tells nobody.
- `steps n`: `n` steps, whether or not requests are left; `runFor_eq_ok`, `runFor_of_steps`: a
  replay is as many steps as it takes until every request has completed.
-/

namespace MemoryReplay

namespace Progress

variable {σ ω : Type}

@[simp] theorem andThen_ok (s : Session σ ω) (next : Session σ ω → Progress σ ω) :
    (Progress.ok s).andThen next = next s := rfl

theorem andThen_eq_ok {p : Progress σ ω} {next : Session σ ω → Progress σ ω}
    {t : Session σ ω} (h : p.andThen next = .ok t) : ∃ s, p = .ok s ∧ next s = .ok t := by
  rcases p with ⟨_ | _, s⟩
  · cases h
  · exact ⟨s, rfl, h⟩

/-- The session after two phases is that after the first one or that after both. -/
theorem andThen_snd {Q : Session σ ω → Prop} {p : Progress σ ω}
    {next : Session σ ω → Progress σ ω} (hp : Q p.2) (hnext : ∀ s, Q s → Q (next s).2) :
    Q (p.andThen next).2 := by
  rcases p with ⟨_ | _, s⟩
  · exact hp
  · exact hnext s hp

theorem ok_inj {s t : Session σ ω} (h : Progress.ok s = .ok t) : s = t :=
  congrArg Prod.snd h

end Progress

namespace Session

variable {σ ω : Type}

/-! ### Whatever becomes of a phase -/

theorem tell_snd (event : Attempt ω Unit) (s : Session σ ω) :
    (tell event s).2.driver = s.driver ∧ (tell event s).2.memory = s.memory := by
  unfold tell
  split <;> exact ⟨rfl, rfl⟩

variable [MemorySystem σ] [Observer ω]

theorem offer_driver (k : Fin channels) (s : Session σ ω) :
    (s.offer k).2.driver = s.driver ∨ ∃ head rest, s.driver.queues.get k = head :: rest ∧
      (s.offer k).2.driver = s.driver.issue k head rest := by
  unfold offer
  split
  · exact .inl rfl
  · next head rest hq =>
    split
    · exact .inl rfl
    · exact .inl rfl
    · split
      · exact .inl rfl
      · exact .inr ⟨head, rest, hq, (tell_snd _ _).1⟩

omit [Observer ω] in
theorem advance_driver (s : Session σ ω) :
    ∃ cycle mailbox, s.advance.2.driver = { s.driver with cycle, mailbox } := by
  unfold advance
  split
  · exact ⟨_, _, rfl⟩
  · exact ⟨s.driver.cycle, s.driver.mailbox, rfl⟩

omit [MemorySystem σ] in
theorem settle_driver (key : Completion) (s : Session σ ω) :
    (s.settle key).2.driver = (s.driver.match? key).2 := by
  unfold settle
  dsimp only
  split
  · rfl
  · exact (tell_snd _ _).1

omit [MemorySystem σ] in
theorem settles_memory (keys : List Completion) :
    ∀ s : Session σ ω, (settles keys s).2.memory = s.memory := by
  induction keys with
  | nil => exact fun _ => rfl
  | cons key rest ih =>
    intro s
    refine Progress.andThen_snd (Q := fun u => u.memory = s.memory) ?_ fun u hu => (ih u).trans hu
    unfold settle
    dsimp only
    split
    · rfl
    · exact (tell_snd _ _).2

omit [MemorySystem σ] in
/-- Completions are matched without the memory. -/
theorem deliver_memory (s : Session σ ω) : s.deliver.2.memory = s.memory := by
  unfold deliver
  dsimp only
  split
  · rfl
  · refine Progress.andThen_snd (Q := fun u => u.memory = s.memory) (tell_snd _ _).2 ?_
    intro u hu
    exact (settles_memory _ u).trans hu

/-- What holds after every offer, however it ends, holds after all of them. -/
theorem offers_snd {Q : Session σ ω → Prop} (hoffer : ∀ k s, Q s → Q (s.offer k).2)
    (ks : List (Fin channels)) : ∀ s : Session σ ω, Q s → Q (offers ks s).2 := by
  induction ks with
  | nil => exact fun _ h => h
  | cons k rest ih =>
    intro s h
    exact Progress.andThen_snd (hoffer k s h) ih

/-- What holds after every phase, however it ends, holds after a step. -/
theorem step_snd {Q : Session σ ω → Prop}
    (htell : ∀ (event : Attempt ω Unit) s, Q s → Q (tell event s).2)
    (hoffer : ∀ k s, Q s → Q (s.offer k).2) (hadvance : ∀ s, Q s → Q s.advance.2)
    (hdeliver : ∀ s, Q s → Q s.deliver.2) (s : Session σ ω) (h : Q s) : Q s.step.2 := by
  unfold step
  -- the phases one after the other; each may be the last
  refine Progress.andThen_snd (htell _ s h) fun s h => ?_
  refine Progress.andThen_snd (offers_snd hoffer _ s h) fun s h => ?_
  exact Progress.andThen_snd (hadvance s h) hdeliver

end Session

/-- A property of the books that survives an admission, a moved clock and a completion. -/
structure Driver.Stable (P : Driver → Prop) : Prop where
  issue : ∀ d k head rest, d.queues.get k = head :: rest → P d → P (d.issue k head rest)
  clock : ∀ d cycle mailbox, P d → P { d with cycle, mailbox }
  settle : ∀ d key, P d → P (d.match? key).2

namespace Driver.Stable

variable {P : Driver → Prop} {σ ω : Type} [MemorySystem σ] [Observer ω]

theorem offer (hP : Stable P) (k : Fin channels) (s : Session σ ω) (h : P s.driver) :
    P (s.offer k).2.driver := by
  rcases s.offer_driver k with hsame | ⟨head, rest, hq, hissue⟩
  · rw [hsame]
    exact h
  · rw [hissue]
    exact hP.issue s.driver k head rest hq h

omit [MemorySystem σ] in
theorem settles (hP : Stable P) (keys : List Completion) :
    ∀ s : Session σ ω, P s.driver → P (Session.settles keys s).2.driver := by
  induction keys with
  | nil => exact fun _ h => h
  | cons key rest ih =>
    intro s h
    refine Progress.andThen_snd (Q := fun s => P s.driver) ?_ ih
    rw [Session.settle_driver]
    exact hP.settle s.driver key h

omit [MemorySystem σ] in
theorem deliver (hP : Stable P) (s : Session σ ω) (h : P s.driver) : P s.deliver.2.driver := by
  have hempty : P { s.driver with mailbox := [] } := hP.clock s.driver s.driver.cycle [] h
  unfold Session.deliver
  dsimp only
  split
  · exact hempty
  · refine Progress.andThen_snd (Q := fun s => P s.driver) ?_ (hP.settles _)
    rw [(Session.tell_snd _ _).1]
    exact hempty

/-- What survives every operation of the books survives a step, however the step ends. -/
theorem step (hP : Stable P) (s : Session σ ω) (h : P s.driver) : P s.step.2.driver := by
  refine Session.step_snd (Q := fun s => P s.driver) ?_ hP.offer ?_ hP.deliver s h
  · intro event s h
    rw [(Session.tell_snd _ _).1]
    exact h
  · intro s h
    -- a cycle writes nothing but the clock and the mailbox
    obtain ⟨cycle, mailbox, hd⟩ := s.advance_driver
    rw [hd]
    exact hP.clock s.driver cycle mailbox h

end Driver.Stable

namespace Session

variable {σ ω : Type}

/-! ### Phases that no fault stopped -/

theorem tell_eq_ok {event : Attempt ω Unit} {s t : Session σ ω} (h : tell event s = .ok t) :
    t.driver = s.driver ∧ t.memory = s.memory := by
  have hsnd := tell_snd event s
  rw [h] at hsnd
  exact hsnd

variable [MemorySystem σ] [Observer ω]

/-- A channel that offered its head had nothing to offer, was refused, or saw it admitted. -/
theorem offer_eq_ok {k : Fin channels} {s t : Session σ ω} (h : s.offer k = .ok t) :
    (s.driver.queues.get k = [] ∧ t = s) ∨
    (∃ head rest memory, s.driver.queues.get k = head :: rest ∧
      MemorySystem.accepts s.memory head.address head.direction = some (false, memory) ∧
      t = { s with memory }) ∨
    (∃ head rest asked memory, s.driver.queues.get k = head :: rest ∧
      MemorySystem.accepts s.memory head.address head.direction = some (true, asked) ∧
      MemorySystem.submit asked head.address head.direction = some memory ∧
      t.driver = s.driver.issue k head rest ∧ t.memory = memory) := by
  unfold offer at h
  split at h
  · next hq => exact .inl ⟨hq, (Progress.ok_inj h).symm⟩
  · next head rest hq =>
    split at h
    · cases h
    · next memory hacc => exact .inr (.inl ⟨head, rest, memory, hq, hacc, (Progress.ok_inj h).symm⟩)
    · next asked hacc =>
      split at h
      · cases h
      · next memory hsub =>
        obtain ⟨hd, hm⟩ := tell_eq_ok h
        exact .inr (.inr ⟨head, rest, asked, memory, hq, hacc, hsub, hd, hm⟩)

/-- What each offer passes on to the channels that are left, all offers establish. -/
theorem offers_invariant {P : List (Fin channels) → Session σ ω → Prop}
    (hoffer : ∀ k rest s t, P (k :: rest) s → s.offer k = .ok t → P rest t) :
    ∀ (ks : List (Fin channels)) {s t : Session σ ω}, P ks s → offers ks s = .ok t → P [] t
  | [], s, t, hs, h => Progress.ok_inj h ▸ hs
  | k :: rest, s, t, hs, h => by
    obtain ⟨u, hu, ht⟩ := Progress.andThen_eq_ok h
    exact offers_invariant hoffer rest (hoffer k rest s u hs hu) ht

/-- When all channels offer, each of them offers once. -/
theorem all_offers_invariant {P : List (Fin channels) → Session σ ω → Prop}
    (hoffer : ∀ k rest s t, k ∉ rest → P (k :: rest) s → s.offer k = .ok t → P rest t)
    {s t : Session σ ω} (hs : P (List.finRange channels) s)
    (h : offers (List.finRange channels) s = .ok t) : P [] t := by
  have hinv := offers_invariant (P := fun left u => left.Nodup ∧ P left u) ?_ _
    ⟨List.nodup_finRange _, hs⟩ h
  · exact hinv.2
  rintro k rest u v ⟨hnodup, hu⟩ hoffered
  obtain ⟨hk, hrest⟩ := List.nodup_cons.mp hnodup
  exact ⟨hrest, hoffer k rest u v hk hu hoffered⟩

theorem offers_cons_of_ok {k : Fin channels} {rest : List (Fin channels)} {s u : Session σ ω}
    (h : s.offer k = .ok u) : offers (k :: rest) s = offers rest u := by
  show (s.offer k).andThen (offers rest) = offers rest u
  rw [h, Progress.andThen_ok]

/-- If every offer can be made, all offers can. -/
theorem offers_progress {P : Session σ ω → Prop}
    (hoffer : ∀ k s, P s → ∃ t, s.offer k = .ok t ∧ P t) :
    ∀ (ks : List (Fin channels)) {s : Session σ ω}, P s → ∃ t, offers ks s = .ok t ∧ P t
  | [], s, hs => ⟨s, rfl, hs⟩
  | k :: rest, s, hs => by
    obtain ⟨u, hu, hpu⟩ := hoffer k s hs
    obtain ⟨t, ht, hpt⟩ := offers_progress hoffer rest hpu
    exact ⟨t, (offers_cons_of_ok hu).trans ht, hpt⟩

/-- Offers leave the clock, the completions and the mailbox alone. -/
theorem offers_frame {ks : List (Fin channels)} {s t : Session σ ω} (h : offers ks s = .ok t) :
    t.driver.cycle = s.driver.cycle ∧ t.driver.completed = s.driver.completed ∧
      t.driver.mailbox = s.driver.mailbox ∧ t.driver.total = s.driver.total := by
  refine offers_invariant (P := fun _ t => t.driver.cycle = s.driver.cycle ∧
    t.driver.completed = s.driver.completed ∧ t.driver.mailbox = s.driver.mailbox ∧
    t.driver.total = s.driver.total) ?_ ks ⟨rfl, rfl, rfl, rfl⟩ h
  intro k rest u v hu hoffer
  rcases offer_eq_ok hoffer with ⟨-, rfl⟩ | ⟨_, _, _, -, -, rfl⟩ | ⟨_, _, _, _, -, -, -, hd, -⟩
  · exact hu
  · exact hu
  · rw [hd]
    exact hu

/-- Offers take no admission back. -/
theorem offers_slots_le {ks : List (Fin channels)} {s t : Session σ ω} (h : offers ks s = .ok t) :
    s.driver.slots.size ≤ t.driver.slots.size := by
  refine offers_invariant (P := fun _ t => s.driver.slots.size ≤ t.driver.slots.size) ?_ ks
    (Nat.le_refl _) h
  intro k rest u v hu hoffer
  rcases offer_eq_ok hoffer with ⟨-, rfl⟩ | ⟨_, _, _, -, -, rfl⟩ | ⟨head, rest, _, _, -, -, -, hd, -⟩
  · exact hu
  · exact hu
  · rw [hd, Driver.size_slots_issue]
    exact Nat.le_succ_of_le hu

omit [Observer ω] in
theorem advance_eq_ok {s t : Session σ ω} (h : s.advance = .ok t) :
    ∃ memory events, MemorySystem.tick s.memory = some (memory, events) ∧
      s.driver.cycle + 1 < UInt64.size ∧ t = { s with
        memory
        driver := { s.driver with
          cycle := s.driver.cycle + 1, mailbox := s.driver.mailbox ++ events } } := by
  unfold advance at h
  split at h
  · next memory events cycle htick hfits =>
    obtain ⟨rfl, hlt⟩ := Word.fits_eq_some_iff.mp hfits
    exact ⟨memory, events, htick, hlt, (Progress.ok_inj h).symm⟩
  · cases h

omit [MemorySystem σ] in
theorem settle_eq_ok {key : Completion} {s t : Session σ ω} (h : s.settle key = .ok t) :
    (∃ r, (s.driver.match? key).1 = some r) ∧ t.driver = (s.driver.match? key).2 ∧
      t.memory = s.memory := by
  unfold settle at h
  dsimp only at h
  split at h
  · cases h
  · next r hr =>
    obtain ⟨hd, hm⟩ := tell_eq_ok h
    exact ⟨⟨r, hr⟩, hd, hm⟩

omit [MemorySystem σ] in
theorem settles_cons_of_ok {key : Completion} {rest : List Completion} {s u : Session σ ω}
    (h : s.settle key = .ok u) : settles (key :: rest) s = settles rest u := by
  show (s.settle key).andThen (settles rest) = settles rest u
  rw [h, Progress.andThen_ok]

omit [MemorySystem σ] in
theorem settles_append_of_ok {keys rest : List Completion} {s t : Session σ ω}
    (h : settles keys s = .ok t) : settles (keys ++ rest) s = settles rest t := by
  induction keys generalizing s with
  | nil => rw [Progress.ok_inj h, List.nil_append]
  | cons key keys ih =>
    obtain ⟨u, hu, ht⟩ := Progress.andThen_eq_ok h
    rw [List.cons_append, settles_cons_of_ok hu, ih ht]

omit [MemorySystem σ] in
/-- What each completion passes on to those that are left, all of them establish. -/
theorem settles_invariant {P : List Completion → Session σ ω → Prop}
    (hsettle : ∀ key rest s t, P (key :: rest) s → s.settle key = .ok t → P rest t) :
    ∀ (keys : List Completion) {s t : Session σ ω}, P keys s → settles keys s = .ok t → P [] t
  | [], s, t, hs, h => Progress.ok_inj h ▸ hs
  | key :: rest, s, t, hs, h => by
    obtain ⟨u, hu, ht⟩ := Progress.andThen_eq_ok h
    exact settles_invariant hsettle rest (hsettle key rest s u hs hu) ht

omit [MemorySystem σ] in
/-- Completions leave the clock and the queues alone, and the memory as well. -/
theorem settles_frame {keys : List Completion} {s t : Session σ ω}
    (h : settles keys s = .ok t) :
    t.driver.cycle = s.driver.cycle ∧ t.driver.queues = s.driver.queues ∧
      t.driver.mailbox = s.driver.mailbox ∧ t.driver.total = s.driver.total ∧
      t.memory = s.memory := by
  refine settles_invariant (P := fun _ t => t.driver.cycle = s.driver.cycle ∧
    t.driver.queues = s.driver.queues ∧ t.driver.mailbox = s.driver.mailbox ∧
    t.driver.total = s.driver.total ∧ t.memory = s.memory) ?_ keys ⟨rfl, rfl, rfl, rfl, rfl⟩ h
  intro key rest u v hu hsettle
  obtain ⟨-, hd, hm⟩ := settle_eq_ok hsettle
  obtain ⟨hqueues, htotal, hcycle, hmailbox⟩ := u.driver.match?_frame key
  rw [hd, hm, hqueues, htotal, hcycle, hmailbox]
  exact hu

omit [MemorySystem σ] in
theorem deliver_eq_ok {s t : Session σ ω} (h : s.deliver = .ok t) :
    ∃ u : Session σ ω, u.driver = { s.driver with mailbox := [] } ∧ u.memory = s.memory ∧
      settles s.driver.mailbox u = .ok t := by
  unfold deliver at h
  dsimp only at h
  split at h
  · next hnil =>
    rw [hnil]
    exact ⟨{ s with driver := { s.driver with mailbox := [] } }, rfl, rfl, h⟩
  · obtain ⟨u, hu, ht⟩ := Progress.andThen_eq_ok h
    obtain ⟨hd, hm⟩ := tell_eq_ok hu
    exact ⟨u, hd, hm, ht⟩

/-- A step that no fault stopped has gone through its three phases. -/
theorem step_eq_ok {s t : Session σ ω} (h : s.step = .ok t) :
    ∃ u v w : Session σ ω, u.driver = s.driver ∧ u.memory = s.memory ∧
      offers (List.finRange channels) u = .ok v ∧ v.advance = .ok w ∧ w.deliver = .ok t := by
  obtain ⟨u, hu, h⟩ := Progress.andThen_eq_ok h
  obtain ⟨v, hv, h⟩ := Progress.andThen_eq_ok h
  obtain ⟨w, hw, ht⟩ := Progress.andThen_eq_ok h
  obtain ⟨hd, hm⟩ := tell_eq_ok hu
  exact ⟨u, v, w, hd, hm, hv, hw, ht⟩

/-- A step moves the clock by one cycle. -/
theorem step_cycle {s t : Session σ ω} (h : s.step = .ok t) :
    t.driver.cycle = s.driver.cycle + 1 ∧ s.driver.cycle + 1 < UInt64.size ∧
      t.driver.total = s.driver.total := by
  obtain ⟨u, v, w, hu, -, hoffers, hadvance, hdeliver⟩ := step_eq_ok h
  obtain ⟨hvcycle, -, -, hvtotal⟩ := offers_frame hoffers
  obtain ⟨_, _, -, hlt, rfl⟩ := advance_eq_ok hadvance
  obtain ⟨x, hx, -, hsettles⟩ := deliver_eq_ok hdeliver
  obtain ⟨htcycle, -, -, httotal, -⟩ := settles_frame hsettles
  rw [htcycle, httotal, hx, ← hu, ← hvcycle, ← hvtotal]
  exact ⟨rfl, hlt, rfl⟩

/-! ### Nobody is told -/

section Quiet

variable {σ : Type} {s : Session σ Silence}

/-- A session that told nobody goes on where the phase left it. -/
theorem settle_of_match? {key : Completion} (h : ∃ r, (s.driver.match? key).1 = some r) :
    s.settle key = .ok { s with driver := (s.driver.match? key).2 } := by
  obtain ⟨r, hr⟩ := h
  unfold settle
  rw [show s.driver.match? key = ((s.driver.match? key).1, (s.driver.match? key).2) from rfl, hr]
  rfl

variable [MemorySystem σ]

/-- A step is offers, a cycle and its completions. -/
theorem quiet_step (s : Session σ Silence) : s.step =
    (offers (List.finRange channels) s).andThen fun v => v.advance.andThen deliver := rfl

theorem quiet_offer (k : Fin channels) (s : Session σ Silence) :
    (∃ t, s.offer k = .ok t) ∨ ∃ t, s.offer k = .overflow t := by
  unfold offer
  split
  · exact .inl ⟨_, rfl⟩
  · split
    · exact .inr ⟨_, rfl⟩
    · exact .inl ⟨_, rfl⟩
    · split
      · exact .inr ⟨_, rfl⟩
      · exact .inl ⟨_, rfl⟩

/-- Offers that nobody is told of stop only at a number that leaves 64 bits. -/
theorem quiet_offers (ks : List (Fin channels)) : ∀ s : Session σ Silence,
    (∃ t, offers ks s = .ok t) ∨ ∃ t, offers ks s = .overflow t := by
  induction ks with
  | nil => exact fun s => .inl ⟨s, rfl⟩
  | cons k rest ih =>
    intro s
    rcases s.quiet_offer k with ⟨t, ht⟩ | ⟨t, ht⟩
    · rw [offers_cons_of_ok ht]
      exact ih t
    · show (∃ u, (s.offer k).andThen (offers rest) = .ok u) ∨ ∃ u, (s.offer k).andThen _ = .overflow u
      rw [ht]
      exact .inr ⟨t, rfl⟩

/-- After the offers, the completions of the cycle are matched behind those reported before. -/
theorem quiet_cycle {memory : σ} {events : List Completion}
    (htick : MemorySystem.tick s.memory = some (memory, events))
    (hfits : s.driver.cycle + 1 < UInt64.size) :
    s.advance.andThen deliver = settles (s.driver.mailbox ++ events) { s with
      memory
      driver := { s.driver with cycle := s.driver.cycle + 1, mailbox := [] } } := by
  simp only [advance, htick, Word.fits_eq_some_iff.mpr ⟨rfl, hfits⟩, Progress.andThen_ok]
  unfold deliver
  cases s.driver.mailbox ++ events <;> rfl

theorem quiet_cycle_overflow (h : MemorySystem.tick s.memory = none ∨
    ¬ s.driver.cycle + 1 < UInt64.size) : s.advance.andThen deliver = .overflow s := by
  have hadvance : s.advance = .overflow s := by
    rcases h with htick | hover
    · simp only [advance, htick]
    · have hcycle : Word.fits (s.driver.cycle + 1) = none := if_neg hover
      simp only [advance, hcycle]
      cases MemorySystem.tick s.memory <;> rfl
  rw [hadvance]
  rfl

end Quiet

/-! ### Many steps -/

/-- A number of steps, whether or not requests are left. -/
def steps : Nat → Session σ ω → Progress σ ω
  | 0, s => .ok s
  | n + 1, s => (steps n s).andThen step

theorem steps_succ_eq_ok {n : Nat} {s t : Session σ ω} (h : steps (n + 1) s = .ok t) :
    ∃ u, steps n s = .ok u ∧ u.step = .ok t :=
  Progress.andThen_eq_ok h

theorem steps_succ_of_ok {n : Nat} {s u : Session σ ω} (h : steps n s = .ok u) :
    steps (n + 1) s = u.step := by
  show (steps n s).andThen step = u.step
  rw [h, Progress.andThen_ok]

/-- The first step may be taken first. -/
theorem steps_succ' (n : Nat) : ∀ s : Session σ ω, steps (n + 1) s = s.step.andThen (steps n) := by
  induction n with
  | zero =>
    intro s
    show s.step = _
    rcases s.step with ⟨_ | _, t⟩ <;> rfl
  | succ n ih =>
    intro s
    show (steps (n + 1) s).andThen step = _
    rw [ih s]
    rcases s.step with ⟨_ | _, t⟩ <;> rfl

/-- Steps from a session that steps led to. -/
theorem steps_from {i j : Nat} {s u t : Session σ ω} (hu : steps i s = .ok u)
    (h : steps (i + j) s = .ok t) : steps j u = .ok t := by
  induction j generalizing t with
  | zero =>
    obtain rfl := Progress.ok_inj (hu.symm.trans h)
    rfl
  | succ j ih =>
    obtain ⟨v, hv, ht⟩ := steps_succ_eq_ok h
    rw [steps_succ_of_ok (ih hv), ht]

/-- Steps that go through have gone through some of them first. -/
theorem steps_split {i j : Nat} {s t : Session σ ω} (h : steps (i + j) s = .ok t) :
    ∃ u, steps i s = .ok u ∧ steps j u = .ok t := by
  induction j generalizing t with
  | zero => exact ⟨t, h, rfl⟩
  | succ j ih =>
    obtain ⟨v, hv, ht⟩ := steps_succ_eq_ok h
    obtain ⟨u, hu, huv⟩ := ih hv
    exact ⟨u, hu, by rw [steps_succ_of_ok huv, ht]⟩

/-- What every step keeps, any number of steps keeps. -/
theorem steps_invariant {P : Session σ ω → Prop} (hstep : ∀ s t, P s → s.step = .ok t → P t)
    {n : Nat} {s t : Session σ ω} (hs : P s) (h : steps n s = .ok t) : P t := by
  induction n generalizing t with
  | zero => exact Progress.ok_inj h ▸ hs
  | succ n ih =>
    obtain ⟨u, hu, ht⟩ := steps_succ_eq_ok h
    exact hstep u t (ih hu) ht

theorem steps_cycle {n : Nat} {s t : Session σ ω} (h : steps n s = .ok t) :
    t.driver.cycle = s.driver.cycle + n ∧ t.driver.total = s.driver.total := by
  induction n generalizing t with
  | zero =>
    obtain rfl := Progress.ok_inj h
    exact ⟨rfl, rfl⟩
  | succ n ih =>
    obtain ⟨u, hu, ht⟩ := steps_succ_eq_ok h
    obtain ⟨hcycle, htotal⟩ := ih hu
    obtain ⟨htcycle, -, httotal⟩ := step_cycle ht
    exact ⟨by omega, httotal.trans htotal⟩

/-- A clock never leaves 64 bits. -/
theorem steps_lt {n : Nat} {s t : Session σ ω} (hs : s.driver.cycle < UInt64.size)
    (h : steps n s = .ok t) : s.driver.cycle + n < UInt64.size := by
  cases n with
  | zero => exact hs
  | succ n =>
    obtain ⟨u, hu, ht⟩ := steps_succ_eq_ok h
    have hcycle := (steps_cycle hu).1
    have hlt := (step_cycle ht).2.1
    omega

/-- A replay to its end is the steps up to the first moment at which nothing is left to do. -/
theorem runFor_eq_ok {fuel : Nat} {s t : Session σ ω} (h : runFor fuel s = .ok t) :
    ∃ n ≤ fuel, steps n s = .ok t ∧ t.driver.isDone = true ∧
      ∀ m < n, ∀ u, steps m s = .ok u → u.driver.isDone = false := by
  induction fuel generalizing s with
  | zero =>
    unfold runFor at h
    split at h
    · next hdone =>
      obtain rfl := Progress.ok_inj h
      exact ⟨0, Nat.le_refl 0, rfl, hdone, fun m hm => absurd hm (Nat.not_lt_zero m)⟩
    · cases h
  | succ fuel ih =>
    unfold runFor at h
    split at h
    · next hdone =>
      obtain rfl := Progress.ok_inj h
      exact ⟨0, Nat.zero_le _, rfl, hdone, fun m hm => absurd hm (Nat.not_lt_zero m)⟩
    · next hbusy =>
      obtain ⟨u, hu, ht⟩ := Progress.andThen_eq_ok h
      obtain ⟨n, hn, hsteps, hdone, hfirst⟩ := ih ht
      refine ⟨n + 1, Nat.succ_le_succ hn, ?_, hdone, ?_⟩
      · rw [steps_succ', hu, Progress.andThen_ok]
        exact hsteps
      · intro m hm v hv
        cases m with
        | zero =>
          obtain rfl := Progress.ok_inj hv
          simpa using hbusy
        | succ m =>
          rw [steps_succ', hu, Progress.andThen_ok] at hv
          exact hfirst m (Nat.lt_of_succ_lt_succ hm) v hv

/-- If some number of steps leaves nothing to do, a replay ends, and no later than that. -/
theorem runFor_of_steps {fuel n : Nat} {s t : Session σ ω} (hn : n ≤ fuel)
    (h : steps n s = .ok t) (hdone : t.driver.isDone = true) :
    ∃ m ≤ n, ∃ u, steps m s = .ok u ∧ u.driver.isDone = true ∧ runFor fuel s = .ok u := by
  induction n generalizing fuel s with
  | zero =>
    obtain rfl := Progress.ok_inj h
    refine ⟨0, Nat.le_refl 0, s, rfl, hdone, ?_⟩
    cases fuel <;> simp [runFor, hdone]
  | succ n ih =>
    obtain ⟨fuel, rfl⟩ : ∃ f, fuel = f + 1 := ⟨fuel - 1, by omega⟩
    by_cases hnow : s.driver.isDone = true
    · exact ⟨0, Nat.zero_le _, s, rfl, hnow, by simp [runFor, hnow]⟩
    · rw [steps_succ'] at h
      obtain ⟨v, hv, h⟩ := Progress.andThen_eq_ok h
      obtain ⟨m, hm, u, hu, hudone, hrun⟩ := ih (Nat.le_of_succ_le_succ hn) h
      refine ⟨m + 1, Nat.succ_le_succ hm, u, ?_, hudone, ?_⟩
      · rw [steps_succ', hv, Progress.andThen_ok]
        exact hu
      · simp [runFor, hnow, hv, hrun]

end Session

end MemoryReplay
