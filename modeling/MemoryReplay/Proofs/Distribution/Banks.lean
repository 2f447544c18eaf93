import MemoryReplay.Proofs.Distribution.Lossless
import MemoryReplay.Proofs.Distribution.Rounds

/-!
# Banks and bank groups in turn

A bucket with its banks in turn is made of rounds twice over. The queues of the banks are sorted; the
queue of a group goes over its banks in rounds, and the bucket over its groups. Banks and groups come
in ascending order, so in every round they are served in this order.

- `banksOf`, `groupsOf`, `bankQueue`, `groupQueue`: the banks and groups of a bucket, and their
  queues. `interleaveBanked_eq`: the bucket, made of these.
- `filter_interleaveBanked`: the requests of a group come as in the queue of the group.
- `banks_in_turn`: what banks and groups do in the order of a bucket.
-/

namespace MemoryReplay.Distribution

variable (bank : UInt64 → Nat) (bucket : List Request)

/-- The banks of a bucket, each once, in ascending order. -/
def banksOf : List Nat := keysOf (bucket.map fun r => bank r.address)

/-- The requests of a bank by address. -/
def bankQueue (b : Nat) : List Request := sortByAddress (inBank bank b bucket)

/-- The bank groups of a bucket, each once, in ascending order. -/
def groupsOf : List Nat := keysOf ((banksOf bank bucket).map (· / banksPerGroup))

/-- The requests of a bank group, its banks in turn. -/
def groupQueue (g : Nat) : List Request :=
  roundRobin (((banksOf bank bucket).filter (· / banksPerGroup = g)).map (bankQueue bank bucket))

theorem bankQueues_eq : bankQueues bank bucket =
    (banksOf bank bucket).map fun b => (b / banksPerGroup, bankQueue bank bucket b) := by
  have hkeys : (bucket.map fun r => (bank r.address, r)).map Prod.fst =
      bucket.map fun r => bank r.address := List.map_map ..
  unfold bankQueues groupByKey
  rw [List.map_map, hkeys]
  refine List.map_congr_left fun b _ => ?_
  show (b / banksPerGroup, sortByAddress (withKey b (bucket.map fun r => (bank r.address, r)))) = _
  rw [withKey_keyed]
  rfl

/-- **A bucket with its banks in turn**: the groups in turn, and in each group its banks. -/
theorem interleaveBanked_eq : interleaveBanked (bucket.map fun r => (bank r.address, r)) =
    roundRobin ((groupsOf bank bucket).map (groupQueue bank bucket)) := by
  have hkeys : (bankQueues bank bucket).map Prod.fst =
      (banksOf bank bucket).map (· / banksPerGroup) := by
    rw [bankQueues_eq, List.map_map]
    rfl
  show roundRobin ((groupByKey (bankQueues bank bucket)).map fun g => roundRobin g.2) = _
  unfold groupByKey
  rw [List.map_map, hkeys]
  congr 1
  refine List.map_congr_left fun g _ => ?_
  show roundRobin (withKey g (bankQueues bank bucket)) = _
  rw [bankQueues_eq, withKey_map]
  rfl

/-! ### What the queues hold -/

variable {bank bucket} {b g : Nat} {r : Request}

theorem bank_eq_of_mem_bankQueue (hr : r ∈ bankQueue bank bucket b) : bank r.address = b := by
  simpa using List.of_mem_filter ((sortByAddress_perm _).mem_iff.mp hr)

theorem mem_banksOf : b ∈ banksOf bank bucket ↔ ∃ r ∈ bucket, bank r.address = b :=
  mem_keysOf.trans List.mem_map

theorem bankQueue_ne_nil (hb : b ∈ banksOf bank bucket) : bankQueue bank bucket b ≠ [] := by
  obtain ⟨r, hr, rfl⟩ := mem_banksOf.mp hb
  have hmem : r ∈ inBank bank (bank r.address) bucket := List.mem_filter.mpr ⟨hr, by simp⟩
  exact List.ne_nil_of_mem ((sortByAddress_perm _).mem_iff.mpr hmem)

theorem group_eq_of_mem_groupQueue (hr : r ∈ groupQueue bank bucket g) :
    bank r.address / banksPerGroup = g := by
  obtain ⟨q, hq, hr⟩ := mem_roundRobin hr
  obtain ⟨b, hb, rfl⟩ := List.mem_map.mp hq
  rw [bank_eq_of_mem_bankQueue hr]
  simpa using List.of_mem_filter hb

theorem groupQueue_ne_nil (hg : g ∈ groupsOf bank bucket) : groupQueue bank bucket g ≠ [] := by
  obtain ⟨b, hb, rfl⟩ := List.mem_map.mp (mem_keysOf.mp hg)
  have hmem : b ∈ (banksOf bank bucket).filter (· / banksPerGroup = b / banksPerGroup) :=
    List.mem_filter.mpr ⟨hb, by simp⟩
  have hsub : (bankQueue bank bucket b).Sublist (groupQueue bank bucket (b / banksPerGroup)) :=
    sublist_roundRobin (List.mem_map_of_mem hmem)
  intro hnil
  rw [hnil, List.sublist_nil] at hsub
  exact bankQueue_ne_nil hb hsub

/-- The requests of a group come as in its queue. -/
theorem filter_interleaveBanked : (interleaveBanked (bucket.map fun r => (bank r.address, r))).filter
    (fun r => bank r.address / banksPerGroup = g) = groupQueue bank bucket g := by
  have hlabel : ∀ g ∈ groupsOf bank bucket, ∀ r ∈ groupQueue bank bucket g,
      bank r.address / banksPerGroup = g := fun g _ r hr => group_eq_of_mem_groupQueue hr
  rw [interleaveBanked_eq]
  by_cases hg : g ∈ groupsOf bank bucket
  · exact filter_roundRobin hlabel ((keysOf_pairwise _).imp fun h => Nat.ne_of_lt h) hg
  · -- a group without banks has no requests
    have hnone : (banksOf bank bucket).filter (· / banksPerGroup = g) = [] := by
      refine List.filter_eq_nil_iff.mpr fun b hb => ?_
      simp only [decide_eq_true_eq]
      rintro rfl
      exact hg (mem_keysOf.mpr (List.mem_map_of_mem hb))
    rw [groupQueue, hnone]
    refine List.filter_eq_nil_iff.mpr fun r hr => ?_
    obtain ⟨q, hq, hr⟩ := mem_roundRobin hr
    obtain ⟨g', hg', rfl⟩ := List.mem_map.mp hq
    simp only [decide_eq_true_eq]
    rintro rfl
    exact hg (hlabel g' hg' r hr ▸ hg')

/-- **Banks and groups take turns as long as they can.** A bucket with its banks in turn has the same
requests, those of each bank stably sorted by address. Two requests of one group follow each other
only if no other group has a request left; the same holds for the banks inside a group. Groups, and
the banks of a group, are served round by round, in each round in ascending order. -/
theorem banks_in_turn (bank : UInt64 → Nat) (bucket : List Request) :
    ∃ out, interleaveBanks (fun a => some (bank a)) bucket = some out ∧
      out.Perm bucket ∧
      (∀ b, StablySorted (inBank bank b bucket) (inBank bank b out)) ∧
      (let groups := out.map fun r => bank r.address / banksPerGroup
       Switching groups ∧ InRounds groups) ∧
      ∀ g,
        let members := out.filter fun r => bank r.address / banksPerGroup = g
        let banks := members.map fun r => bank r.address
        Switching banks ∧ InRounds banks := by
  obtain ⟨hperm, hsorted⟩ := arranged_arrange .bankParallel bank bucket
  refine ⟨_, order_eq_some .bankParallel bank bucket, hperm, hsorted, ?_, fun g => ?_⟩
  · have hrounds : InRounds ((arrange .bankParallel bank bucket).map fun r =>
        bank r.address / banksPerGroup) := by
      unfold arrange
      dsimp only
      rw [interleaveBanked_eq]
      exact inRounds_roundRobin (fun g _ r hr => group_eq_of_mem_groupQueue hr) (keysOf_pairwise _)
        fun g hg => groupQueue_ne_nil hg
    exact ⟨hrounds.switching, hrounds⟩
  · have hrounds : InRounds (((arrange .bankParallel bank bucket).filter fun r =>
        bank r.address / banksPerGroup = g).map fun r => bank r.address) := by
      unfold arrange
      dsimp only
      rw [filter_interleaveBanked]
      refine inRounds_roundRobin (fun b _ r hr => bank_eq_of_mem_bankQueue hr)
        ((keysOf_pairwise _).filter _) fun b hb => ?_
      exact bankQueue_ne_nil (List.mem_of_mem_filter hb)
    exact ⟨hrounds.switching, hrounds⟩

/-- Banks zero and one are one group, bank four is in another. -/
example : (interleaveBanked [(1, .fresh 3 .read), (4, .fresh 2 .read), (0, .fresh 9 .read),
    (0, .fresh 1 .read)]).map (·.address) = [1, 2, 3, 9] := by cbv

end MemoryReplay.Distribution
