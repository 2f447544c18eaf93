import MemoryReplay.Proofs.Distribution.Banks

/-!
# What a distribution depends on

A stable sort is determined by the requests that it finds at each address, in their order. So is the
order of banks and groups in turn, which is made of such sorts and of the banks that occur. The two
strategies that sort see nothing else of a trace, and the third one sees the requests of each
pseudo-channel.

- `eq_of_atAddress`: requests by address are determined by those at each address.
  `StablySorted.eq`: a stable sort is unique.
- `arrange_congr`: a bucket in the order of a strategy that sorts.
- `SameQueues`: two traces with the same queues. `distribution_canonical`: which traces these are.
- `arrange_one_bank`: a single bank in turn is sorted by address.
- `distribution_paths_agree`: ways of ordering and merging that come to the same.
-/

namespace MemoryReplay.Distribution

/-! ### Stable sorts -/

section

variable {l l' : List Request}

theorem mem_of_atAddress (h : ∀ a, atAddress a l = atAddress a l') {r : Request} (hr : r ∈ l) :
    r ∈ l' := by
  have hmem : r ∈ atAddress r.address l := List.mem_filter.mpr ⟨hr, by simp⟩
  rw [h] at hmem
  exact List.mem_of_mem_filter hmem

/-- **Requests by address are determined by those at each address.** -/
theorem eq_of_atAddress (hl : l.Pairwise fun r s => r.address ≤ s.address)
    (hl' : l'.Pairwise fun r s => r.address ≤ s.address)
    (h : ∀ a, atAddress a l = atAddress a l') : l = l' := by
  induction l generalizing l' with
  | nil =>
    refine (List.eq_nil_iff_forall_not_mem.mpr fun r hr => ?_).symm
    exact List.not_mem_nil (mem_of_atAddress (fun a => (h a).symm) hr)
  | cons r rest ih =>
    cases l' with
    | nil => exact absurd (mem_of_atAddress h List.mem_cons_self) List.not_mem_nil
    | cons s rest' =>
      obtain ⟨hr, hrest⟩ := List.pairwise_cons.mp hl
      obtain ⟨hs, hrest'⟩ := List.pairwise_cons.mp hl'
      -- both heads have the least address, and are the first requests at it
      have hle : ∀ x ∈ r :: rest, r.address ≤ x.address :=
        List.forall_mem_cons.mpr ⟨UInt64.le_refl _, hr⟩
      have hle' : ∀ x ∈ s :: rest', s.address ≤ x.address :=
        List.forall_mem_cons.mpr ⟨UInt64.le_refl _, hs⟩
      have haddress : s.address = r.address := UInt64.le_antisymm
        (hle' r (mem_of_atAddress h List.mem_cons_self))
        (hle s (mem_of_atAddress (fun a => (h a).symm) List.mem_cons_self))
      have hheads := h r.address
      unfold atAddress at hheads
      rw [List.filter_cons_of_pos (by simp), List.filter_cons_of_pos (by simp [haddress])] at hheads
      obtain ⟨rfl, htails⟩ := List.cons.inj hheads
      refine congrArg _ (ih hrest hrest' fun a => ?_)
      by_cases ha : r.address = a
      · exact ha ▸ htails
      · have hothers := h a
        unfold atAddress at hothers
        rwa [List.filter_cons_of_neg (by simpa using ha),
          List.filter_cons_of_neg (by simpa using ha)] at hothers

/-- **A stable sort is unique.** -/
theorem StablySorted.eq {bucket out out' : List Request} (h : StablySorted bucket out)
    (h' : StablySorted bucket out') : out = out' :=
  eq_of_atAddress h.ascending h'.ascending fun a => (h.stable a).trans (h'.stable a).symm

theorem stablySorted_sortByAddress (bucket : List Request) :
    StablySorted bucket (sortByAddress bucket) :=
  arranged_arrange .rowLocality (fun _ => 0) bucket

theorem sortByAddress_congr (h : ∀ a, atAddress a l = atAddress a l') :
    sortByAddress l = sortByAddress l' := by
  have hl := stablySorted_sortByAddress l
  have hl' := stablySorted_sortByAddress l'
  exact eq_of_atAddress hl.ascending hl'.ascending fun a =>
    ((hl.stable a).trans (h a)).trans (hl'.stable a).symm

/-- Parts of two traces that agree at every address do so too. -/
theorem atAddress_filter_congr (p : Request → Bool) (h : ∀ a, atAddress a l = atAddress a l')
    (a : UInt64) : atAddress a (l.filter p) = atAddress a (l'.filter p) := by
  unfold atAddress at h ⊢
  rw [List.filter_comm, h, List.filter_comm]

variable (bank : UInt64 → Nat)

theorem interleaveBanked_congr (h : ∀ a, atAddress a l = atAddress a l') :
    interleaveBanked (l.map fun r => (bank r.address, r)) =
      interleaveBanked (l'.map fun r => (bank r.address, r)) := by
  have hbanks : banksOf bank l = banksOf bank l' := by
    refine (keysOf_pairwise _).eq_of_mem_iff (keysOf_pairwise _) fun b => ?_
    show b ∈ banksOf bank l ↔ b ∈ banksOf bank l'
    rw [mem_banksOf, mem_banksOf]
    exact ⟨fun ⟨r, hr, hb⟩ => ⟨r, mem_of_atAddress h hr, hb⟩,
      fun ⟨r, hr, hb⟩ => ⟨r, mem_of_atAddress (fun a => (h a).symm) hr, hb⟩⟩
  have hqueues : bankQueue bank l = bankQueue bank l' :=
    funext fun b => sortByAddress_congr (atAddress_filter_congr _ h)
  have hgroups : groupQueue bank l = groupQueue bank l' := by
    funext g
    unfold groupQueue
    rw [hbanks, hqueues]
  rw [interleaveBanked_eq, interleaveBanked_eq, groupsOf, groupsOf, hbanks, hgroups]

/-- A strategy that sorts sees the requests at each address, and nothing else of a bucket. -/
theorem arrange_congr {strategy : Strategy} (hstrategy : strategy ≠ .roundRobin)
    (h : ∀ a, atAddress a l = atAddress a l') :
    arrange strategy bank l = arrange strategy bank l' := by
  cases strategy with
  | roundRobin => exact absurd rfl hstrategy
  | rowLocality => exact sortByAddress_congr h
  | bankParallel => exact interleaveBanked_congr bank h

end

/-! ### Traces with the same queues -/

variable (strategy : Strategy) (channel : UInt64 → Fin pseudoChannels) (bank : UInt64 → Nat)

/-- Both traces are distributed, and into the same queues. -/
def SameQueues (trace trace' : List Request) : Prop :=
  ∃ queues,
    distribute (fun a => some (channel a).val) (fun a => some (bank a)) strategy trace = .ok queues ∧
    distribute (fun a => some (channel a).val) (fun a => some (bank a)) strategy trace' = .ok queues

variable {strategy channel bank} {trace trace' : List Request}

theorem sameQueues_iff : SameQueues strategy channel bank trace trace' ↔
    queueOf strategy channel bank trace = queueOf strategy channel bank trace' := by
  unfold SameQueues
  rw [distribute_eq, distribute_eq]
  constructor
  · rintro ⟨queues, h, h'⟩
    have hqueues := Except.ok.inj (h.trans h'.symm)
    funext k
    rw [← Tally.get_ofFn (queueOf strategy channel bank trace), hqueues, Tally.get_ofFn]
  · intro h
    exact ⟨_, rfl, by rw [h]⟩

theorem sameQueues_iff_address (hstrategy : strategy ≠ .roundRobin) :
    SameQueues strategy channel bank trace trace' ↔ ∀ a, atAddress a trace = atAddress a trace' := by
  rw [sameQueues_iff]
  constructor
  · intro h a
    rw [← queueOf_filter_address channel bank a strategy trace rfl, h, queueOf_filter_address]
    rfl
  · intro h
    have hbucket : ∀ c, arrange strategy bank (bucketIn channel trace c) =
        arrange strategy bank (bucketIn channel trace' c) := fun c =>
      arrange_congr bank hstrategy (atAddress_filter_congr _ h)
    funext k
    unfold queueOf
    rw [hbucket, hbucket]

theorem sameQueues_iff_bucket : SameQueues .roundRobin channel bank trace trace' ↔
    ∀ c, bucketIn channel trace c = bucketIn channel trace' c := by
  rw [sameQueues_iff]
  constructor
  · intro h c
    have hbucket := fun trace => queueOf_filter_channel .roundRobin bank channel trace c
    exact (hbucket trace).symm.trans ((congrArg _ (congrFun h _)).trans (hbucket trace'))
  · intro h
    funext k
    unfold queueOf
    rw [h, h]

/-- **Two traces have the same queues if and only if they agree on what their strategy looks at.** With
row locality or banks in turn that is the order of the requests at each address, whatever the order of
different addresses; with round robin it is the order of the requests of each pseudo-channel. -/
theorem distribution_canonical (channel : UInt64 → Fin pseudoChannels) (bank : UInt64 → Nat)
    (trace trace' : List Request) :
    (SameQueues .rowLocality channel bank trace trace' ↔
      ∀ a, atAddress a trace = atAddress a trace') ∧
    (SameQueues .bankParallel channel bank trace trace' ↔
      ∀ a, atAddress a trace = atAddress a trace') ∧
    (SameQueues .roundRobin channel bank trace trace' ↔
      ∀ c, bucketIn channel trace c = bucketIn channel trace' c) :=
  ⟨sameQueues_iff_address nofun, sameQueues_iff_address nofun, sameQueues_iff_bucket⟩

/-! ### A single bank -/

/-- The requests of a single bank, in turn, are the requests by address. -/
theorem arrange_one_bank (b : Nat) (bucket : List Request) :
    arrange .bankParallel (fun _ => b) bucket = sortByAddress bucket := by
  have hall : ∀ requests, inBank (fun _ => b) b requests = requests := fun requests =>
    List.filter_eq_self.mpr fun _ _ => decide_eq_true rfl
  have hsorted := (arranged_arrange .bankParallel (fun _ => b) bucket).2 b
  rw [hall, hall] at hsorted
  exact hsorted.eq (stablySorted_sortByAddress bucket)

/-- **Ways of distribution that come to the same.** If all addresses lie in one bank, banks in turn are
row locality, with the same queues or the same failure; so they are for a memory that knows no banks.
And two buckets are merged as by the rounds over the two. -/
theorem distribution_paths_agree (channelOf bankOf : UInt64 → Checked Nat) (b : Nat)
    (trace first second : List Request) :
    distribute channelOf (fun _ => some b) .bankParallel trace =
      distribute channelOf bankOf .rowLocality trace ∧
    distributeUnbanked channelOf .bankParallel trace =
      distributeUnbanked channelOf .rowLocality trace ∧
    mergePair first second = roundRobin [first, second] := by
  have horder : ∀ (b : Nat) (bankOf : UInt64 → Checked Nat),
      order .bankParallel (fun _ => some b) = order .rowLocality bankOf := by
    intro b bankOf
    funext bucket
    rw [order_eq_some .bankParallel (fun _ => b) bucket, arrange_one_bank]
    rfl
  refine ⟨?_, ?_, mergePair_eq_roundRobin first second⟩
  · unfold distribute
    rw [horder b bankOf]
  · unfold distributeUnbanked distribute
    rw [horder 0 fun _ => some 0]

end MemoryReplay.Distribution
