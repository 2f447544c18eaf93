import MemoryReplay.Proofs.Distribution.Order

/-!
# Requests with one address

Requests with one address belong to one bank of one pseudo-channel, and no strategy changes their
order: a stable sort and an interleaving both leave them behind one another as they were.

- `sublist_mergePair_left`, `sublist_mergePair_right`, `sublist_roundRobin`: an interleaving keeps
  each queue in its order.
- `sublist_arrange`: so does the order of a strategy for the requests with one address.
- `queueOf_filter_address`: the queue of their channel has them as they came in the trace.
-/

namespace MemoryReplay.Distribution

/-! ### Interleavings -/

section

variable {α : Type} {queues : List (List α)} {q : List α} {count : Nat}

theorem sublist_mergePair_left (first second : List α) :
    first.Sublist (mergePair first second) := by
  fun_induction mergePair first second with
  | case1 second => exact List.nil_sublist _
  | case2 a first => exact List.Sublist.refl _
  | case3 a first b second ih => exact (ih.cons b).cons_cons a

theorem sublist_mergePair_right (first second : List α) :
    second.Sublist (mergePair first second) := by
  fun_induction mergePair first second with
  | case1 second => exact List.Sublist.refl _
  | case2 a first => exact List.nil_sublist _
  | case3 a first b second ih => exact (ih.cons_cons b).cons a

theorem sublist_rounds (hq : q ∈ queues) (hlength : q.length ≤ count) :
    q.Sublist (rounds count queues) := by
  induction count generalizing queues q with
  | zero =>
    obtain rfl := List.eq_nil_of_length_eq_zero (Nat.le_zero.mp hlength)
    exact List.nil_sublist _
  | succ count ih =>
    cases q with
    | nil => exact List.nil_sublist _
    | cons a rest =>
      -- the head is given in this round, and the rest in those that follow
      have hhead : a ∈ queues.filterMap List.head? := List.mem_filterMap.mpr ⟨_, hq, rfl⟩
      have htail : rest ∈ queues.map List.tail := List.mem_map.mpr ⟨_, hq, rfl⟩
      have hrest := ih htail (Nat.le_of_succ_le_succ hlength)
      exact (List.singleton_sublist.mpr hhead).append hrest

theorem sublist_roundRobin (hq : q ∈ queues) : q.Sublist (roundRobin queues) :=
  sublist_rounds hq (length_le_longest hq)

theorem mem_groupByKey {items : List (Nat × α)} {key : Nat} {a : α} (h : (key, a) ∈ items) :
    (key, withKey key items) ∈ groupByKey items := by
  have hkey : key ∈ items.map Prod.fst := List.mem_map.mpr ⟨_, h, rfl⟩
  exact List.mem_map.mpr ⟨key, mem_keysOf.mpr hkey, rfl⟩

/-- What satisfies `p` is in the same order in both lists, if it is in that order in the second. -/
theorem filter_eq_of_sublist {l l' : List α} {p : α → Bool} (hsub : (l.filter p).Sublist l')
    (hperm : l'.Perm l) : l'.filter p = l.filter p := by
  have hkept := hsub.filter p
  rw [List.filter_filter] at hkept
  simp only [Bool.and_self] at hkept
  exact (hkept.eq_of_length (hperm.filter p).length_eq.symm).symm

end

/-! ### Buckets -/

variable (channel : UInt64 → Fin pseudoChannels) (bank : UInt64 → Nat) (a : UInt64)

/-- The requests with an address. -/
def atAddress (requests : List Request) : List Request := requests.filter fun r => r.address = a

/-- A stable sort keeps requests that come by address already. -/
theorem sublist_sortByAddress {requests bucket : List Request} (hsub : requests.Sublist bucket)
    (hsame : ∀ r ∈ requests, r.address = a) : requests.Sublist (sortByAddress bucket) := by
  refine List.sublist_mergeSort (fun x y z => ?_) (fun x y => ?_) ?_ hsub
  · simpa using UInt64.le_trans
  · simpa using UInt64.le_total x.address y.address
  · refine List.pairwise_of_forall_mem_list fun r hr s hs => ?_
    rw [hsame r hr, hsame s hs]
    simp

/-- With banks and groups in turn, requests with one address keep their order: they are all in one
bank. -/
theorem sublist_interleaveBanked (bucket : List Request) : (atAddress a bucket).Sublist
    (interleaveBanked (bucket.map fun r => (bank r.address, r))) := by
  have hsame : ∀ r ∈ atAddress a bucket, r.address = a := by
    intro r hr
    simpa using List.of_mem_filter hr
  by_cases hnone : atAddress a bucket = []
  · rw [hnone]
    exact List.nil_sublist _
  obtain ⟨r, hr⟩ := List.exists_mem_of_ne_nil _ hnone
  -- the bank of the address holds them all, sorted
  let banked := bucket.map fun r => (bank r.address, r)
  have hgroup : (bank a, withKey (bank a) banked) ∈ groupByKey banked := by
    refine mem_groupByKey (a := r) (List.mem_map.mpr ⟨r, List.mem_of_mem_filter hr, ?_⟩)
    rw [hsame r hr]
  have hbank : (atAddress a bucket).Sublist (withKey (bank a) banked) := by
    show (atAddress a bucket).Sublist (withKey _ (bucket.map fun r => (bank r.address, r)))
    rw [withKey_keyed]
    refine List.monotone_filter_right bucket fun r hr => ?_
    simpa using congrArg bank (of_decide_eq_true hr)
  have hsorted := sublist_sortByAddress a hbank hsame
  -- its queue is one of its group, and its group is one of all
  have hmem : (bank a / banksPerGroup, sortByAddress (withKey (bank a) banked)) ∈
      bankQueues bank bucket := List.mem_map.mpr ⟨_, hgroup, rfl⟩
  have hturn := sublist_roundRobin (mem_withKey.mpr hmem)
  have hgroups : roundRobin (withKey (bank a / banksPerGroup) (bankQueues bank bucket)) ∈
      (groupByKey (bankQueues bank bucket)).map fun g => roundRobin g.2 :=
    List.mem_map.mpr ⟨_, mem_groupByKey hmem, rfl⟩
  exact (hsorted.trans hturn).trans (sublist_roundRobin hgroups)

theorem sublist_arrange (strategy : Strategy) (bucket : List Request) :
    (atAddress a bucket).Sublist (arrange strategy bank bucket) := by
  cases strategy with
  | roundRobin => exact List.filter_sublist
  | rowLocality =>
    refine sublist_sortByAddress a List.filter_sublist fun r hr => ?_
    simpa using List.of_mem_filter hr
  | bankParallel => exact sublist_interleaveBanked bank a bucket

/-- A part of a trace that has all requests with an address has them as they came. -/
theorem atAddress_filter {p : Request → Bool} (hp : ∀ r : Request, r.address = a → p r = true)
    (trace : List Request) : atAddress a (trace.filter p) = atAddress a trace := by
  unfold atAddress
  rw [List.filter_filter]
  refine List.filter_congr fun r _ => ?_
  by_cases hr : r.address = a
  · simp [hr, hp r hr]
  · simp [hr]

/-- **The queue of a channel has the requests with one address as they came in the trace.** -/
theorem queueOf_filter_address (strategy : Strategy) (trace : List Request) {k : Fin channels}
    (hk : half (channel a) = k) :
    atAddress a (queueOf strategy channel bank trace k) = atAddress a trace := by
  have hown : atAddress a (trace.filter fun r => half (channel r.address) = k) = atAddress a trace :=
    atAddress_filter a (fun r hr => by simp [hr, hk]) trace
  -- they are in one of the two buckets of the channel
  have hbucket : ∀ c, channel a = c →
      (atAddress a trace).Sublist (arrange strategy bank (bucketIn channel trace c)) := by
    intro c hc
    rw [← atAddress_filter a (p := fun r => channel r.address = c) (fun r hr => by simp [hr, hc])]
    exact sublist_arrange bank a strategy _
  have hsub : (atAddress a trace).Sublist (queueOf strategy channel bank trace k) := by
    rcases half_eq_iff.mp hk with hlower | hupper
    · exact (hbucket _ hlower).trans (sublist_mergePair_left ..)
    · exact (hbucket _ hupper).trans (sublist_mergePair_right ..)
  rw [← hown] at hsub ⊢
  exact filter_eq_of_sublist hsub (queueOf_perm strategy channel bank trace k)

end MemoryReplay.Distribution
