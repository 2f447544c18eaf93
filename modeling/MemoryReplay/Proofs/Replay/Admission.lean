import Mathlib.Data.List.Forall2
import MemoryReplay.Proofs.Memory.Visits
import MemoryReplay.Proofs.Replay.Coupling

/-!
# When a request is admitted

Every channel offers the head of its queue once in a cycle, so a request is admitted in the first
cycle after its predecessor's in which the queue of its pseudo-channel has room.

- `Prompt fields depth before v`: this law for the visit `v` of a channel, after the visits
  `before` of the channel.
- `noLater_of_prompt`: with deeper queues the same visits come no later.
- `Session.Attentive c left s visits`: the invariant in a cycle in which the channels `left` have
  not offered yet. `Attentive.passed`, `Attentive.granted`: an offer that admits nothing, and one
  that does. `Attentive.ticked`: a cycle.
-/

namespace MemoryReplay

open History

variable {fields : AddressFields} {depth depth' : Nat}

theorem busy_reverse (fields : AddressFields) (visits : List Visit) (j : Fin pseudoChannels)
    (cycle : Nat) : busy fields visits.reverse j cycle = busy fields visits j cycle :=
  (List.reverse_perm visits).countP_eq _

/-- A visit of a channel was admitted in the first cycle after its predecessors' in which the queue
of its pseudo-channel had room. -/
structure Prompt (fields : AddressFields) (depth : Nat) (before : List Visit) (v : Visit) :
    Prop where
  after : ∀ w ∈ before, w.issue < v.issue
  room : busy fields before (fields.channel v.key.address) v.issue < depth
  first : ∀ cycle < v.issue, (∀ w ∈ before, w.issue < cycle) →
    depth ≤ busy fields before (fields.channel v.key.address) cycle

/-- The same request with the same latency, admitted no later. -/
structure Visit.NoLater (v w : Visit) : Prop where
  key : w.key = v.key
  latency : w.latency = v.latency
  issue : w.issue ≤ v.issue

theorem Visit.NoLater.finish {v w : Visit} (h : v.NoLater w) : w.finish ≤ v.finish := by
  unfold Visit.finish
  rw [h.latency]
  exact Nat.add_le_add_right h.issue _

theorem exists_noLater {vs ws : List Visit} (h : List.Forall₂ Visit.NoLater vs ws) {w : Visit}
    (hw : w ∈ ws) : ∃ v ∈ vs, v.NoLater w := by
  induction h with
  | nil => cases hw
  | cons hvw _ ih =>
    rcases List.mem_cons.mp hw with rfl | hw
    · exact ⟨_, List.mem_cons_self, hvw⟩
    · obtain ⟨v, hv, hle⟩ := ih hw
      exact ⟨v, List.mem_cons_of_mem _ hv, hle⟩

/-- Visits that come no later are under way in no more cycles. -/
theorem busy_le (fields : AddressFields) {vs ws : List Visit} (h : List.Forall₂ Visit.NoLater vs ws)
    (j : Fin pseudoChannels) (cycle : Nat) : busy fields ws j cycle ≤ busy fields vs j cycle := by
  induction h with
  | nil => exact Nat.le_refl _
  | @cons v w vs ws hvw _ ih =>
    unfold busy at ih ⊢
    rw [List.countP_cons, List.countP_cons]
    have hfinish := hvw.finish
    have hhead : (if decide (fields.channel w.key.address = j ∧ cycle < w.finish) = true then 1
        else 0) ≤ if decide (fields.channel v.key.address = j ∧ cycle < v.finish) = true then 1
        else 0 := by
      simp only [decide_eq_true_eq, hvw.key]
      split
      · next hw => rw [if_pos ⟨hw.1, Nat.lt_of_lt_of_le hw.2 hfinish⟩]
      · exact Nat.zero_le _
    exact Nat.add_le_add ih hhead

/-- After visits that came no later, the same request is admitted no later by deeper queues. -/
theorem Prompt.issue_le {before before' : List Visit} {v w : Visit} (hdepth : depth ≤ depth')
    (hbefore : List.Forall₂ Visit.NoLater before before') (hkey : w.key = v.key)
    (hv : Prompt fields depth before v) (hw : Prompt fields depth' before' w) :
    w.issue ≤ v.issue := by
  by_contra hlater
  -- the cycle in which `v` was admitted would have been free for `w` too
  have hfree : ∀ x ∈ before', x.issue < v.issue := by
    intro x hx
    obtain ⟨y, hy, hle⟩ := exists_noLater hbefore hx
    exact Nat.lt_of_le_of_lt hle.issue (hv.after y hy)
  have hfull := hw.first v.issue (Nat.lt_of_not_le hlater) hfree
  rw [hkey] at hfull
  have hroom := hv.room
  have hle := busy_le fields hbefore (fields.channel v.key.address) v.issue
  omega

/-- **With deeper queues the same visits come no later.** -/
theorem noLater_of_prompt (hdepth : depth ≤ depth') {vs ws before before' : List Visit}
    (hbefore : List.Forall₂ Visit.NoLater before before')
    (hsame : vs.map (fun v => (v.key, v.latency)) = ws.map fun w => (w.key, w.latency))
    (hvs : ∀ past ∈ pasts before vs, Prompt fields depth past.1 past.2)
    (hws : ∀ past ∈ pasts before' ws, Prompt fields depth' past.1 past.2) :
    List.Forall₂ Visit.NoLater vs ws := by
  induction vs generalizing ws before before' with
  | nil =>
    obtain rfl := List.map_eq_nil_iff.mp hsame.symm
    exact .nil
  | cons v vs ih =>
    obtain ⟨w, ws, rfl, hhead, htail⟩ := List.map_eq_cons_iff.mp hsame.symm
    obtain ⟨hkey, hlatency⟩ := Prod.mk.inj hhead
    obtain ⟨hv, hvs⟩ := List.forall_mem_cons.mp hvs
    obtain ⟨hw, hws⟩ := List.forall_mem_cons.mp hws
    have hfirst : v.NoLater w := ⟨hkey, hlatency, hv.issue_le hdepth hbefore hkey hw⟩
    exact .cons hfirst (ih (.cons hfirst hbefore) htail.symm hvs hws)

namespace Session

variable {c : MemoryConfig} {s : QuietSession} {k : Fin channels} {left : List (Fin channels)}
  {visits : List Visit} {head : Request} {rest : List Request} {latency : Nat} {model : Service}

/-- All visits have been admitted promptly, and a request that waits could not have been admitted
yet: not in an earlier cycle, nor in this one if its channel has offered it. -/
structure Attentive (c : MemoryConfig) (left : List (Fin channels)) (s : QuietSession)
    (visits : List Visit) : Prop where
  prompt : ∀ k, ∀ past ∈ pasts [] (visits.filter (Visit.isOf c k)),
    Prompt c.fields c.queueDepth.toNat past.1 past.2
  waited : ∀ k head rest, s.driver.queues.get k = head :: rest →
    ∀ cycle, cycle < s.driver.cycle ∨ cycle = s.driver.cycle ∧ k ∉ left →
      (∀ w ∈ visits.filter (Visit.isOf c k), w.issue < cycle) →
        c.queueDepth.toNat ≤ busy c.fields (visits.filter (Visit.isOf c k))
          (c.fields.channel head.address) cycle
  free : ∀ k ∈ left, ∀ w ∈ visits.filter (Visit.isOf c k), w.issue < s.driver.cycle

namespace Attentive

theorem opening (queues : Vector (List Request) channels) (memory : QueuedMemory Service)
    (observer : Silence) :
    Attentive c (List.finRange channels) ⟨.ofQueues queues, memory, observer⟩ [] where
  prompt _ _ hpast := nomatch hpast
  waited k _ _ _ cycle hcycle _ := by
    rcases hcycle with hlt | ⟨-, hout⟩
    · exact absurd hlt (Nat.not_lt_zero cycle)
    · exact absurd (List.mem_finRange k) hout
  free _ _ _ hw := nomatch hw

/-- A channel has had its turn, and could not have had a request admitted. -/
theorem passed (h : Attentive c (k :: left) s visits)
    (hnow : ∀ head rest, s.driver.queues.get k = head :: rest →
      c.queueDepth.toNat ≤ busy c.fields (visits.filter (Visit.isOf c k))
        (c.fields.channel head.address) s.driver.cycle) : Attentive c left s visits where
  prompt := h.prompt
  waited j head rest hq cycle hcycle hearlier := by
    by_cases hj : j = k
    · subst hj
      rcases hcycle with hlt | ⟨rfl, -⟩
      · exact h.waited j head rest hq cycle (.inl hlt) hearlier
      · exact hnow head rest hq
    · refine h.waited j head rest hq cycle (hcycle.imp_right fun hout => ⟨hout.1, ?_⟩) hearlier
      exact List.not_mem_cons_of_ne_of_not_mem hj hout.2
  free j hj := h.free j (List.mem_cons_of_mem _ hj)

/-- A channel has had its turn, and a request was admitted. -/
theorem granted (h : Attentive c (k :: left) s visits) (hleft : k ∉ left)
    (hq : s.driver.queues.get k = head :: rest)
    (hrouted : half (c.fields.channel head.address) = k)
    (hroom : busy c.fields (visits.filter (Visit.isOf c k)) (c.fields.channel head.address)
      s.driver.cycle < c.queueDepth.toNat) :
    Attentive c left (s.granted k head rest latency model)
      (visits ++ [⟨head.key, s.driver.cycle, latency⟩]) := by
  -- the new visit is one of channel `k`
  have hof : ∀ j, (visits ++ [(⟨head.key, s.driver.cycle, latency⟩ : Visit)]).filter (Visit.isOf c j) =
      visits.filter (Visit.isOf c j) ++
        if k = j then [⟨head.key, s.driver.cycle, latency⟩] else [] := by
    intro j
    have hkey : Visit.isOf c j ⟨head.key, s.driver.cycle, latency⟩ = decide (k = j) :=
      congrArg (fun i => decide (i = j)) hrouted
    rw [List.filter_append, List.filter_cons, hkey, List.filter_nil]
    simp only [decide_eq_true_eq]
  refine ⟨fun j => ?_, fun j head' rest' hq' cycle hcycle hearlier => ?_, fun j hj w hw => ?_⟩
  · rw [hof]
    by_cases hj : k = j
    · subst hj
      rw [if_pos rfl, pasts_concat, List.append_nil]
      intro past hpast
      rcases List.mem_append.mp hpast with hpast | hpast
      · exact h.prompt k past hpast
      · obtain rfl := List.mem_singleton.mp hpast
        refine ⟨fun w hw => h.free k List.mem_cons_self w (List.mem_reverse.mp hw), ?_, ?_⟩
        · rw [busy_reverse]
          exact hroom
        · intro cycle hlt hearlier
          rw [busy_reverse]
          exact h.waited k head rest hq cycle (.inl hlt)
            fun w hw => hearlier w (List.mem_reverse.mpr hw)
    · rw [if_neg hj, List.append_nil]
      exact h.prompt j
  · have hqueue : (s.driver.queues.set k rest).get j = head' :: rest' := hq'
    rw [Tally.get_set] at hqueue
    rw [hof] at hearlier ⊢
    by_cases hj : k = j
    · -- the channel has just had a request admitted, in this very cycle
      rw [if_pos hj] at hearlier
      have hlt := hearlier ⟨head.key, s.driver.cycle, latency⟩ (by simp)
      have hle : cycle ≤ s.driver.cycle := by
        rcases hcycle with hbefore | ⟨rfl, -⟩
        · exact Nat.le_of_lt hbefore
        · exact Nat.le_refl _
      exact absurd hlt (Nat.not_lt.mpr hle)
    · rw [if_neg hj, List.append_nil] at hearlier ⊢
      rw [if_neg hj] at hqueue
      refine h.waited j head' rest' hqueue cycle (hcycle.imp_right fun hout => ⟨hout.1, ?_⟩) hearlier
      exact List.not_mem_cons_of_ne_of_not_mem (Ne.symm hj) hout.2
  · have hj' : k ≠ j := fun heq => hleft (heq ▸ hj)
    rw [hof, if_neg hj', List.append_nil] at hw
    exact h.free j (List.mem_cons_of_mem _ hj) w hw

/-- In the next cycle every channel may offer again. -/
theorem ticked (h : Attentive c [] s visits) (hissued : ∀ v ∈ visits, v.issue ≤ s.driver.cycle)
    {t : QuietSession} (hcycle : t.driver.cycle = s.driver.cycle + 1)
    (hqueues : t.driver.queues = s.driver.queues) :
    Attentive c (List.finRange channels) t visits where
  prompt := h.prompt
  waited k head rest hq cycle hpast hearlier := by
    rw [hqueues] at hq
    refine h.waited k head rest hq cycle ?_ hearlier
    rcases hpast with hlt | ⟨-, hout⟩
    · rw [hcycle] at hlt
      rcases Nat.lt_or_eq_of_le (Nat.le_of_lt_succ hlt) with hlt | heq
      · exact .inl hlt
      · exact .inr ⟨heq, List.not_mem_nil⟩
    · exact absurd (List.mem_finRange k) hout
  free k _ w hw := by
    rw [hcycle]
    exact Nat.lt_succ_of_le (hissued w (List.mem_of_mem_filter hw))

end Attentive

end Session

end MemoryReplay
