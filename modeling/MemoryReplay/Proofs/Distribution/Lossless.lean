import MemoryReplay.Proofs.Distribution.Stability
import MemoryReplay.Proofs.Distribution.Success

/-!
# What a distribution does to a trace

For any classification of the addresses: a distribution tells of the first request that has no
pseudo-channel, or else it gives every request, as it is, to the channel of its pseudo-channel.

- `StablySorted`, `Arranged`: what each strategy makes of the requests of a pseudo-channel, said
  without sorting. `arranged_arrange`: it does.
- `Alternates`: two labels in turn until one of them is used up. `alternates_mergePair`.
- `filter_mergePair`: what an interleaving keeps of its two queues.
- `mapM_tag_eq`: the pass that finds the first request without a pseudo-channel.
- `Distributed`: what the queues of a distribution hold, and in which order.
- `distribute_lossless`: the distribution of any trace.
-/

namespace MemoryReplay.Distribution

/-! ### The order of a bucket -/

/-- `out` has the requests of `bucket` by address, and those with one address as they came. -/
structure StablySorted (bucket out : List Request) : Prop where
  perm : out.Perm bucket
  ascending : out.Pairwise fun r s => r.address ≤ s.address
  stable : ∀ a, atAddress a out = atAddress a bucket

/-- The requests of a bank. -/
def inBank (bank : UInt64 → Nat) (b : Nat) (requests : List Request) : List Request :=
  requests.filter fun r => bank r.address = b

/-- `out` has the requests of `bucket` in the order of a strategy. -/
def Arranged (bank : UInt64 → Nat) (bucket out : List Request) : Strategy → Prop
  | .roundRobin => out = bucket
  | .rowLocality => StablySorted bucket out
  | .bankParallel => out.Perm bucket ∧ ∀ b, StablySorted (inBank bank b bucket) (inBank bank b out)

variable (strategy : Strategy) (bank : UInt64 → Nat)

theorem atAddress_arrange (a : UInt64) (bucket : List Request) :
    atAddress a (arrange strategy bank bucket) = atAddress a bucket :=
  filter_eq_of_sublist (sublist_arrange bank a strategy bucket) (arrange_perm strategy bank bucket)

theorem arranged_arrange (bucket : List Request) :
    Arranged bank bucket (arrange strategy bank bucket) strategy := by
  cases strategy with
  | roundRobin => exact rfl
  | rowLocality =>
    refine ⟨sortByAddress_perm bucket, ?_, fun a => atAddress_arrange .rowLocality bank a bucket⟩
    -- as if all requests were in one bank
    refine (sortByAddress_pairwise (fun _ => 0) bucket).imp ?_
    intro r s h
    exact h rfl
  | bankParallel =>
    have hperm := arrange_perm .bankParallel bank bucket
    refine ⟨hperm, fun b => ⟨hperm.filter _, ?_, fun a => ?_⟩⟩
    · refine ((interleaveBanked_pairwise bank bucket).filter _).imp_of_mem ?_
      intro r s hr hs h
      have hrbank : bank r.address = b := by simpa using List.of_mem_filter hr
      have hsbank : bank s.address = b := by simpa using List.of_mem_filter hs
      exact h (hrbank.trans hsbank.symm)
    · unfold inBank atAddress
      rw [List.filter_comm, List.filter_comm (l := bucket)]
      exact congrArg _ (atAddress_arrange .bankParallel bank a bucket)

/-! ### Two buckets in turn -/

/-- The labels `x` and `y` in turn, `x` first, until one of them is used up. -/
def Alternates {β : Type} (x y : β) (labels : List β) : Prop :=
  ∃ pairs left z, (z = x ∨ z = y) ∧
    labels = (List.replicate pairs [x, y]).flatten ++ List.replicate left z

section

variable {α β : Type} {first second : List α}

theorem alternates_mergePair (label : α → β) {x y : β} (hfirst : ∀ a ∈ first, label a = x)
    (hsecond : ∀ b ∈ second, label b = y) :
    Alternates x y ((mergePair first second).map label) := by
  fun_induction mergePair first second with
  | case1 second =>
    exact ⟨0, second.length, y, .inr rfl, List.eq_replicate_iff.mpr (by simpa using hsecond)⟩
  | case2 a first =>
    exact ⟨0, first.length + 1, x, .inl rfl, List.eq_replicate_iff.mpr (by simpa using hfirst)⟩
  | case3 a first b second ih =>
    obtain ⟨pairs, left, z, hz, hlabels⟩ := ih (fun a ha => hfirst a (List.mem_cons_of_mem _ ha))
      (fun b hb => hsecond b (List.mem_cons_of_mem _ hb))
    refine ⟨pairs + 1, left, z, hz, ?_⟩
    rw [List.map_cons, List.map_cons, hlabels, hfirst a List.mem_cons_self,
      hsecond b List.mem_cons_self]
    rfl

/-- If only one of two queues holds items of a kind, and no others, they come out as that queue. -/
theorem filter_mergePair (p : α → Bool) :
    ((∀ a ∈ first, p a = true) → (∀ b ∈ second, p b = false) →
      (mergePair first second).filter p = first) ∧
    ((∀ a ∈ first, p a = false) → (∀ b ∈ second, p b = true) →
      (mergePair first second).filter p = second) := by
  have hperm := mergePair_perm first second
  constructor
  · intro hfirst hsecond
    have hkept : (first ++ second).filter p = first := by
      rw [List.filter_append, List.filter_eq_self.mpr hfirst,
        List.filter_eq_nil_iff.mpr fun b hb => by simp [hsecond b hb], List.append_nil]
    have hsub := sublist_mergePair_left first second
    rw [filter_eq_of_sublist (p := p) (hkept.symm ▸ hsub) hperm, hkept]
  · intro hfirst hsecond
    have hkept : (first ++ second).filter p = second := by
      rw [List.filter_append, List.filter_eq_self.mpr hsecond,
        List.filter_eq_nil_iff.mpr fun a ha => by simp [hfirst a ha], List.nil_append]
    have hsub := sublist_mergePair_right first second
    rw [filter_eq_of_sublist (p := p) (hkept.symm ▸ hsub) hperm, hkept]

end

/-- The requests of a pseudo-channel stand in the queue of its channel in the order of the strategy. -/
theorem queueOf_filter_channel (channel : UInt64 → Fin pseudoChannels) (trace : List Request)
    (c : Fin pseudoChannels) :
    (queueOf strategy channel bank trace (half c)).filter (fun r => channel r.address = c) =
      arrange strategy bank (bucketIn channel trace c) := by
  have hclass : ∀ c', ∀ r ∈ arrange strategy bank (bucketIn channel trace c'),
      decide (channel r.address = c) = decide (c' = c) := by
    intro c' r hr
    rw [channel_of_mem_arrange strategy channel bank hr]
  have hne := lower_ne_upper (half c)
  unfold queueOf
  rcases half_eq_iff.mp (rfl : half c = half c) with hc | hc
  · rw [← hc] at hne ⊢
    refine (filter_mergePair _).1 (fun r hr => ?_) fun r hr => ?_
    · rw [hclass c r hr, decide_eq_true rfl]
    · rw [hclass _ r hr, decide_eq_false hne.symm]
  · rw [← hc] at hne ⊢
    refine (filter_mergePair _).2 (fun r hr => ?_) fun r hr => ?_
    · rw [hclass _ r hr, decide_eq_false hne]
    · rw [hclass c r hr, decide_eq_true rfl]

/-! ### The classification -/

variable (classifier : UInt64 → Nat) {trace : List Request}

theorem channelIn_classifier {a : UInt64} (h : classifier a < pseudoChannels) :
    channelIn (fun a => some (classifier a)) a = ⟨classifier a, h⟩ :=
  channelIn_eq rfl h

/-- The pass over a trace gives every request its pseudo-channel, or tells of the first that has
none. -/
theorem mapM_tag_eq (trace : List Request) :
    trace.mapM (tag fun a => some (classifier a)) =
      match trace.find? fun r => pseudoChannels ≤ classifier r.address with
      | some r => .error (.reported (.channelOutOfRange r.address (classifier r.address)))
      | none => .ok (trace.map fun r => (channelIn (fun a => some (classifier a)) r.address, r)) := by
  induction trace with
  | nil => rfl
  | cons r rest ih =>
    rw [List.mapM_cons, ih]
    by_cases hr : classifier r.address < pseudoChannels
    · have htag : tag (fun a => some (classifier a)) r =
          .ok (channelIn (fun a => some (classifier a)) r.address, r) := by
        rw [channelIn_classifier classifier hr]
        exact dif_pos hr
      rw [htag, List.find?_cons_of_neg (by simpa using hr)]
      cases rest.find? fun r => pseudoChannels ≤ classifier r.address <;> rfl
    · have htag : tag (fun a => some (classifier a)) r =
          .error (.reported (.channelOutOfRange r.address (classifier r.address))) := dif_neg hr
      rw [htag, List.find?_cons_of_pos (by simpa using hr)]
      rfl

/-- What the queues of a distribution hold, and in which order. -/
structure Distributed (trace : List Request) (queues : Vector (List Request) channels) : Prop where
  /-- Every request is in the queue of its channel, as it is and as often as it came. -/
  lossless : ∀ k, (queues.get k).Perm
    (trace.filter fun r => classifier r.address = 2 * k.val ∨ classifier r.address = 2 * k.val + 1)
  /-- The requests of a pseudo-channel come in the order of the strategy. -/
  ordered : ∀ (k : Fin channels) (c : Nat), c / 2 = k → Arranged bank
    (trace.filter fun r => classifier r.address = c)
    ((queues.get k).filter fun r => classifier r.address = c) strategy
  /-- The two pseudo-channels of a channel take turns. -/
  alternating : ∀ k, Alternates (2 * k.val) (2 * k.val + 1)
    ((queues.get k).map fun r => classifier r.address)

/-- The queues of a trace of which every request has a pseudo-channel. -/
theorem distributed_queueOf (hinside : ∀ r ∈ trace, classifier r.address < pseudoChannels) :
    Distributed strategy bank classifier trace
      (Vector.ofFn (queueOf strategy (channelIn fun a => some (classifier a)) bank trace)) := by
  let channel := channelIn fun a => some (classifier a)
  have hchannel : ∀ r ∈ trace, (channel r.address).val = classifier r.address := fun r hr =>
    congrArg Fin.val (channelIn_classifier classifier (hinside r hr))
  have hbucket : ∀ c : Fin pseudoChannels,
      bucketIn channel trace c = trace.filter fun r => classifier r.address = c := fun c =>
    List.filter_congr fun r hr => by rw [decide_eq_decide, ← hchannel r hr, Fin.ext_iff]
  have hclass : ∀ c : Fin pseudoChannels,
      ∀ r ∈ arrange strategy bank (bucketIn channel trace c), classifier r.address = c := by
    intro c r hr
    have hmem := List.mem_of_mem_filter ((arrange_perm strategy bank _).mem_iff.mp hr)
    rw [← hchannel r hmem, channel_of_mem_arrange strategy channel bank hr]
  refine { lossless := fun k => ?_, ordered := fun k c hc => ?_, alternating := fun k => ?_ }
  · rw [Tally.get_ofFn]
    refine (queueOf_perm strategy channel bank trace k).trans (.of_eq ?_)
    refine List.filter_congr fun r hr => ?_
    rw [decide_eq_decide, ← hchannel r hr, half, Fin.ext_iff]
    show (channel r.address).val / 2 = k.val ↔ _
    omega
  · rw [Tally.get_ofFn]
    have hsmall : c < pseudoChannels := by
      have hk : c / 2 < channels := hc ▸ k.isLt
      unfold channels at hk
      unfold pseudoChannels
      omega
    have hsame : ((queueOf strategy channel bank trace k).filter fun r => classifier r.address = c) =
        (queueOf strategy channel bank trace k).filter fun r => channel r.address = ⟨c, hsmall⟩ :=
      List.filter_congr fun r hr => by
        rw [decide_eq_decide, ← hchannel r (mem_queueOf strategy channel bank hr).1, Fin.ext_iff]
    obtain rfl : half ⟨c, hsmall⟩ = k := Fin.ext hc
    rw [hsame, queueOf_filter_channel, hbucket]
    exact arranged_arrange strategy bank _
  · rw [Tally.get_ofFn]
    exact alternates_mergePair _ (hclass (lower k)) (hclass (upper k))

/-- **A distribution loses nothing and orders as its strategy says.** It fails only for a request
without a pseudo-channel, and tells of the first; otherwise there is one queue for each channel. -/
theorem distribute_lossless (trace : List Request) :
    match trace.find? fun r => pseudoChannels ≤ classifier r.address with
    | some r => distribute (fun a => some (classifier a)) (fun a => some (bank a)) strategy trace =
        .error (.reported (.channelOutOfRange r.address (classifier r.address)))
    | none => ∃ queues, distribute (fun a => some (classifier a)) (fun a => some (bank a)) strategy
        trace = .ok queues ∧ Distributed strategy bank classifier trace queues := by
  have htags := mapM_tag_eq classifier trace
  cases hfind : trace.find? fun r => pseudoChannels ≤ classifier r.address with
  | some r =>
    rw [hfind] at htags
    unfold distribute Distribution.classify
    rw [htags]
    rfl
  | none =>
    rw [hfind] at htags
    have hinside : ∀ r ∈ trace, classifier r.address < pseudoChannels := by
      simpa using hfind
    -- the buckets are those of a classification that gives every address a pseudo-channel
    let channel := channelIn fun a => some (classifier a)
    have hbuckets : Distribution.classify (fun a => some (classifier a)) trace =
        Distribution.classify (fun a => some (channel a).val) trace := by
      rw [classify_eq]
      unfold Distribution.classify
      rw [htags]
      show Except.ok (Vector.ofFn _) = Except.ok (Vector.ofFn _)
      congr 2
      funext c
      exact bucketOf_map channel trace c
    have hqueues := distribute_eq strategy channel bank trace
    unfold distribute at hqueues ⊢
    rw [hbuckets]
    exact ⟨_, hqueues, distributed_queueOf strategy bank classifier hinside⟩

end MemoryReplay.Distribution
