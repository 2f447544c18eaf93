import MemoryReplay.Proofs.Distribution.Queues

/-!
# The order that a distribution keeps

An interleaving keeps the order of each queue it is made of. So it keeps every order that does not
relate items of different queues, and the requests of a bank, which all come out of one sorted
queue, come out sorted.

- `Apart S q q'`: queues of which the items may come in any order, as far as `S` is concerned.
- `mergePair_pairwise`, `roundRobin_pairwise`: interleavings of such queues.
- `queueOf_pairwise`: with a strategy that sorts, the queue of a channel has the requests of each
  bank by address.
-/

namespace MemoryReplay.Distribution

variable {α : Type} {S : α → α → Prop} {first second q q' : List α} {queues : List (List α)}
  {count : Nat} {a : α}

/-- Queues of which the items may come in any order. -/
def Apart (S : α → α → Prop) (q q' : List α) : Prop :=
  ∀ a ∈ q, ∀ b ∈ q', S a b ∧ S b a

instance : Std.Symm (Apart S) where
  symm _ _ h a ha b hb := (h b hb a ha).symm

theorem Apart.tails (h : Apart S q q') : Apart S q.tail q'.tail :=
  fun a ha b hb => h a (List.mem_of_mem_tail ha) b (List.mem_of_mem_tail hb)

theorem mergePair_pairwise (hfirst : first.Pairwise S) (hsecond : second.Pairwise S)
    (h : Apart S first second) : (mergePair first second).Pairwise S := by
  fun_induction mergePair first second with
  | case1 second => exact hsecond
  | case2 a first => exact hfirst
  | case3 a first b second ih =>
    obtain ⟨ha, hfirst⟩ := List.pairwise_cons.mp hfirst
    obtain ⟨hb, hsecond⟩ := List.pairwise_cons.mp hsecond
    have hmem : ∀ x ∈ mergePair first second, x ∈ first ∨ x ∈ second := fun x hx =>
      List.mem_append.mp ((mergePair_perm first second).mem_iff.mp hx)
    refine List.pairwise_cons.mpr ⟨fun x hx => ?_, List.pairwise_cons.mpr ⟨fun x hx => ?_, ?_⟩⟩
    · rcases List.mem_cons.mp hx with rfl | hx
      · exact (h a List.mem_cons_self x List.mem_cons_self).1
      · rcases hmem x hx with hx | hx
        · exact ha x hx
        · exact (h a List.mem_cons_self x (List.mem_cons_of_mem _ hx)).1
    · rcases hmem x hx with hx | hx
      · exact (h x (List.mem_cons_of_mem _ hx) b List.mem_cons_self).2
      · exact hb x hx
    · exact ih hfirst hsecond h.tails

theorem mem_rounds (h : a ∈ rounds count queues) : ∃ q ∈ queues, a ∈ q := by
  induction count generalizing queues with
  | zero => cases h
  | succ count ih =>
    rcases List.mem_append.mp h with h | h
    · obtain ⟨q, hq, hhead⟩ := List.mem_filterMap.mp h
      exact ⟨q, hq, List.mem_of_mem_head? hhead⟩
    · obtain ⟨t, ht, ha⟩ := ih h
      obtain ⟨q, hq, rfl⟩ := List.mem_map.mp ht
      exact ⟨q, hq, List.mem_of_mem_tail ha⟩

theorem mem_roundRobin (h : a ∈ roundRobin queues) : ∃ q ∈ queues, a ∈ q := mem_rounds h

theorem rounds_pairwise (hqueues : ∀ q ∈ queues, q.Pairwise S) (h : queues.Pairwise (Apart S)) :
    (rounds count queues).Pairwise S := by
  induction count generalizing queues with
  | zero => exact .nil
  | succ count ih =>
    refine List.pairwise_append.mpr ⟨?_, ih (fun t ht => ?_) ?_, fun a ha b hb => ?_⟩
    · refine List.pairwise_filterMap.mpr (h.imp fun {q q'} hapart a ha b hb => ?_)
      exact (hapart a (List.mem_of_mem_head? ha) b (List.mem_of_mem_head? hb)).1
    · obtain ⟨q, hq, rfl⟩ := List.mem_map.mp ht
      exact (hqueues q hq).tail
    · exact List.pairwise_map.mpr (h.imp Apart.tails)
    · obtain ⟨q, hq, ha⟩ := List.mem_filterMap.mp ha
      obtain ⟨t, ht, hb⟩ := mem_rounds hb
      obtain ⟨q', hq', rfl⟩ := List.mem_map.mp ht
      by_cases heq : q = q'
      · -- a head comes before the rest of its own queue
        subst heq
        obtain ⟨rest, rfl⟩ := List.head?_eq_some_iff.mp ha
        exact (List.pairwise_cons.mp (hqueues _ hq)).1 b hb
      · have hapart := h.forall hq hq' heq
        exact (hapart a (List.mem_of_mem_head? ha) b (List.mem_of_mem_tail hb)).1

theorem roundRobin_pairwise (hqueues : ∀ q ∈ queues, q.Pairwise S)
    (h : queues.Pairwise (Apart S)) : (roundRobin queues).Pairwise S :=
  rounds_pairwise hqueues h

/-! ### Groups -/

theorem mem_withKey {key : Nat} {items : List (Nat × α)} :
    a ∈ withKey key items ↔ (key, a) ∈ items := by
  simp [withKey]

/-- What comes under a key, if the keys are computed from what they are kept with. -/
theorem withKey_map {β : Type} (key : Nat) (items : List α) (f : α → Nat) (g : α → β) :
    withKey key (items.map fun a => (f a, g a)) = (items.filter fun a => f a = key).map g := by
  unfold withKey
  rw [List.filter_map, List.map_map]
  rfl

theorem withKey_keyed (key : Nat) (items : List α) (f : α → Nat) :
    withKey key (items.map fun a => (f a, a)) = items.filter fun a => f a = key :=
  (withKey_map key items f id).trans (List.map_id _)

/-- Different keys have different groups. -/
theorem groupByKey_pairwise (items : List (Nat × α)) :
    (groupByKey items).Pairwise fun g g' => g.1 ≠ g'.1 :=
  List.pairwise_map.mpr ((keysOf_pairwise _).imp fun h => Nat.ne_of_lt h)

theorem eq_withKey {items : List (Nat × α)} {g : Nat × List α} (h : g ∈ groupByKey items) :
    g.2 = withKey g.1 items := by
  obtain ⟨key, -, rfl⟩ := List.mem_map.mp h
  rfl

/-! ### Requests by address -/

variable (bank : UInt64 → Nat)

/-- Requests of one bank come by address. -/
def ByAddress (r s : Request) : Prop := bank r.address = bank s.address → r.address ≤ s.address

theorem sortByAddress_pairwise (bucket : List Request) :
    (sortByAddress bucket).Pairwise (ByAddress bank) := by
  have hsorted : (sortByAddress bucket).Pairwise fun r s => decide (r.address ≤ s.address) :=
    List.pairwise_mergeSort (fun a b c => by simpa using UInt64.le_trans)
      (fun a b => by simpa using UInt64.le_total ..) bucket
  refine hsorted.imp fun {r s} hle => ?_
  exact fun _ => of_decide_eq_true hle

/-- Requests of different banks may come in any order. -/
theorem apart_of_bank_ne {q q' : List Request}
    (h : ∀ r ∈ q, ∀ s ∈ q', bank r.address ≠ bank s.address) : Apart (ByAddress bank) q q' :=
  fun r hr s hs => ⟨fun heq => absurd heq (h r hr s hs), fun heq => absurd heq.symm (h r hr s hs)⟩

/-- The requests of each bank by address, with the group of the bank. -/
def bankQueues (bucket : List Request) : List (Nat × List Request) :=
  (groupByKey (bucket.map fun r => (bank r.address, r))).map fun p =>
    (p.1 / banksPerGroup, sortByAddress p.2)

/-- A group of requests by bank holds the requests of one bank. -/
theorem bank_eq_of_mem_group {bucket : List Request} {g : Nat × List Request}
    (hg : g ∈ groupByKey (bucket.map fun r => (bank r.address, r))) {r : Request} (hr : r ∈ g.2) :
    bank r.address = g.1 := by
  rw [eq_withKey hg] at hr
  obtain ⟨s, -, heq⟩ := List.mem_map.mp (mem_withKey.mp hr)
  obtain ⟨hkey, rfl⟩ := Prod.mk.inj heq
  exact hkey

theorem mem_bankQueues {bucket : List Request} {b : Nat × List Request}
    (hb : b ∈ bankQueues bank bucket) :
    b.2.Pairwise (ByAddress bank) ∧ ∀ r ∈ b.2, bank r.address / banksPerGroup = b.1 := by
  obtain ⟨g, hg, rfl⟩ := List.mem_map.mp hb
  refine ⟨sortByAddress_pairwise bank g.2, fun r hr => ?_⟩
  rw [bank_eq_of_mem_group bank hg ((sortByAddress_perm g.2).mem_iff.mp hr)]

theorem bankQueues_pairwise (bucket : List Request) :
    (bankQueues bank bucket).Pairwise fun b b' => Apart (ByAddress bank) b.2 b'.2 := by
  refine List.pairwise_map.mpr ((groupByKey_pairwise _).imp_of_mem fun {g g'} hg hg' hne => ?_)
  refine apart_of_bank_ne bank fun r hr s hs => ?_
  rw [bank_eq_of_mem_group bank hg ((sortByAddress_perm g.2).mem_iff.mp hr),
    bank_eq_of_mem_group bank hg' ((sortByAddress_perm g'.2).mem_iff.mp hs)]
  exact hne

/-- With banks and groups in turn the requests of each bank come by address. -/
theorem interleaveBanked_pairwise (bucket : List Request) :
    (interleaveBanked (bucket.map fun r => (bank r.address, r))).Pairwise (ByAddress bank) := by
  have hqueue : ∀ g ∈ groupByKey (bankQueues bank bucket), ∀ q ∈ g.2,
      (g.1, q) ∈ bankQueues bank bucket := fun g hg q hq =>
    mem_withKey.mp (eq_withKey hg ▸ hq)
  show (roundRobin ((groupByKey (bankQueues bank bucket)).map fun g => roundRobin g.2)).Pairwise _
  refine roundRobin_pairwise (fun q hq => ?_) ?_
  · -- inside a group
    obtain ⟨g, hg, rfl⟩ := List.mem_map.mp hq
    refine roundRobin_pairwise (fun q hq => (mem_bankQueues bank (hqueue g hg q hq)).1) ?_
    rw [eq_withKey hg]
    exact List.pairwise_map.mpr ((bankQueues_pairwise bank bucket).filter _)
  · -- banks of different groups are different
    have hgroup : ∀ g ∈ groupByKey (bankQueues bank bucket), ∀ r ∈ roundRobin g.2,
        bank r.address / banksPerGroup = g.1 := fun g hg r hr => by
      obtain ⟨q, hq, hr⟩ := mem_roundRobin hr
      exact (mem_bankQueues bank (hqueue g hg q hq)).2 r hr
    refine List.pairwise_map.mpr ((groupByKey_pairwise _).imp_of_mem fun {g g'} hg hg' hne => ?_)
    refine apart_of_bank_ne bank fun r hr s hs heq => hne ?_
    rw [← hgroup g hg r hr, ← hgroup g' hg' s hs, heq]

/-- With a strategy that sorts, a bucket has the requests of each bank by address. -/
theorem arrange_pairwise {strategy : Strategy} (hstrategy : strategy ≠ .roundRobin)
    (bucket : List Request) : (arrange strategy bank bucket).Pairwise (ByAddress bank) := by
  cases strategy with
  | roundRobin => exact absurd rfl hstrategy
  | rowLocality => exact sortByAddress_pairwise bank bucket
  | bankParallel => exact interleaveBanked_pairwise bank bucket

/-- **The queue of a channel has the requests of each bank by address**, if the strategy sorts. -/
theorem queueOf_pairwise {strategy : Strategy} (hstrategy : strategy ≠ .roundRobin)
    (channel : UInt64 → Fin pseudoChannels) (trace : List Request) (k : Fin channels) :
    (queueOf strategy channel bank trace k).Pairwise fun r s =>
      channel r.address = channel s.address → ByAddress bank r s := by
  have hsorted : ∀ c, (arrange strategy bank (bucketIn channel trace c)).Pairwise fun r s =>
      channel r.address = channel s.address → ByAddress bank r s := fun c => by
    refine (arrange_pairwise bank hstrategy _).imp ?_
    exact fun h _ => h
  refine mergePair_pairwise (hsorted _) (hsorted _) fun r hr s hs => ?_
  · have hne : channel r.address ≠ channel s.address := by
      rw [channel_of_mem_arrange strategy channel bank hr,
        channel_of_mem_arrange strategy channel bank hs]
      exact lower_ne_upper k
    exact ⟨fun heq => absurd heq hne, fun heq => absurd heq.symm hne⟩

end MemoryReplay.Distribution
