import MemoryReplay.Distribution.Strategy
import MemoryReplay.Proofs.Address.Fields
import MemoryReplay.Proofs.Distribution.Interleave
import MemoryReplay.Proofs.Tally

/-!
# The queues of a trace

When every address has a pseudo-channel and a bank, a distribution cannot fail, and its queues
have a closed form.

- `queueOf`: the queue of a channel; `distribute_eq`: the distribution is these eight queues.
- `queueOf_perm`: a queue holds the requests of its channel and no others.
- `sum_length_queueOf`: the queues hold as many requests as the trace.
- `queueOf_filter`: a queue depends on the requests of its channel only.
-/

namespace MemoryReplay

namespace Distribution

theorem half_eq_iff {c : Fin pseudoChannels} {k : Fin channels} :
    half c = k ↔ c = lower k ∨ c = upper k := by
  simp only [half, lower, upper, Fin.ext_iff]
  omega

theorem lower_ne_upper (k : Fin channels) : lower k ≠ upper k := by
  simp only [lower, upper, ne_eq, Fin.mk.injEq]
  omega

variable (strategy : Strategy) (channel : UInt64 → Fin pseudoChannels) (bank : UInt64 → Nat)

/-- A bucket in the order of a strategy. -/
def arrange (bucket : List Request) : List Request :=
  match strategy with
  | .roundRobin => bucket
  | .rowLocality => sortByAddress bucket
  | .bankParallel => interleaveBanked (bucket.map fun r => (bank r.address, r))

/-- The requests of a pseudo-channel. -/
def bucketIn (trace : List Request) (c : Fin pseudoChannels) : List Request :=
  trace.filter fun r => channel r.address = c

/-- The queue of a channel. -/
def queueOf (trace : List Request) (k : Fin channels) : List Request :=
  mergePair (arrange strategy bank (bucketIn channel trace (lower k)))
    (arrange strategy bank (bucketIn channel trace (upper k)))

/-! ### The distribution in closed form -/

theorem order_eq_some (bucket : List Request) :
    order strategy (fun a => some (bank a)) bucket = some (arrange strategy bank bucket) := by
  cases strategy with
  | roundRobin => rfl
  | rowLocality => rfl
  | bankParallel =>
    have hmapM : (bucket.mapM fun r => (some (bank r.address)).map fun bank => (bank, r)) =
        some (bucket.map fun r => (bank r.address, r)) :=
      List.mapM_pure (f := fun r : Request => (bank r.address, r))
    unfold order interleaveBanks
    dsimp only
    rw [hmapM]
    rfl

/-- The bucket of a pseudo-channel, from the requests with their pseudo-channels. -/
theorem bucketOf_map (trace : List Request) (c : Fin pseudoChannels) :
    bucketOf c (trace.map fun r => (channel r.address, r)) = bucketIn channel trace c := by
  unfold bucketOf bucketIn
  rw [List.filter_map, List.map_map]
  exact List.map_id _

theorem classify_eq (trace : List Request) :
    classify (fun a => some (channel a).val) trace = .ok (Vector.ofFn (bucketIn channel trace)) := by
  have htag : tag (fun a => some (channel a).val) =
      fun r : Request => pure (channel r.address, r) := by
    funext r
    show (if inside : (channel r.address).val < pseudoChannels then _ else _) = _
    rw [dif_pos (channel r.address).isLt]
  unfold classify
  rw [htag, List.mapM_pure]
  show Except.ok (Vector.ofFn _) = Except.ok (Vector.ofFn _)
  congr 2
  funext c
  exact bucketOf_map channel trace c

theorem distribute_eq (trace : List Request) :
    distribute (fun a => some (channel a).val) (fun a => some (bank a)) strategy trace =
      .ok (Vector.ofFn (queueOf strategy channel bank trace)) := by
  unfold distribute
  rw [classify_eq]
  have horder : order strategy (fun a => some (bank a)) = fun bucket =>
      pure (arrange strategy bank bucket) := funext (order_eq_some strategy bank)
  show (Outcome.ofChecked (Vector.mapM _ _) >>= _) = _
  rw [horder, Vector.mapM_pure]
  show Except.ok (Vector.ofFn _) = Except.ok (Vector.ofFn _)
  congr 2
  funext k
  simp [pair, queueOf]

/-! ### What the queues hold -/

theorem arrange_perm (bucket : List Request) : (arrange strategy bank bucket).Perm bucket := by
  cases strategy with
  | roundRobin => exact .refl _
  | rowLocality => exact sortByAddress_perm bucket
  | bankParallel =>
    have h := interleaveBanked_perm (bucket.map fun r => (bank r.address, r))
    rw [List.map_map] at h
    simpa [arrange, Function.comp_def] using h

/-- A bucket holds requests of one pseudo-channel only. -/
theorem channel_of_mem_arrange {trace : List Request} {c : Fin pseudoChannels} {r : Request}
    (hr : r ∈ arrange strategy bank (bucketIn channel trace c)) : channel r.address = c := by
  simpa using List.of_mem_filter ((arrange_perm strategy bank _).mem_iff.mp hr)

theorem queueOf_perm (trace : List Request) (k : Fin channels) :
    (queueOf strategy channel bank trace k).Perm
      (trace.filter fun r => half (channel r.address) = k) := by
  let both := trace.filter fun r => half (channel r.address) = k
  -- the requests of a channel are those of its two pseudo-channels
  have hlower : both.filter (fun r => decide (channel r.address = lower k)) =
      bucketIn channel trace (lower k) := by
    rw [List.filter_filter]
    refine List.filter_congr fun r _ => ?_
    by_cases h : channel r.address = lower k <;> simp [h, half_eq_iff]
  have hupper : both.filter (fun r => !decide (channel r.address = lower k)) =
      bucketIn channel trace (upper k) := by
    rw [List.filter_filter]
    refine List.filter_congr fun r _ => ?_
    have hne := (lower_ne_upper k).symm
    by_cases h : channel r.address = upper k <;> simp [h, hne, half_eq_iff]
  calc queueOf strategy channel bank trace k
      _ |>.Perm (arrange strategy bank (bucketIn channel trace (lower k))
          ++ arrange strategy bank (bucketIn channel trace (upper k))) := mergePair_perm ..
      _ |>.Perm (bucketIn channel trace (lower k) ++ bucketIn channel trace (upper k)) :=
        (arrange_perm ..).append (arrange_perm ..)
      _ |>.Perm both := by
        rw [← hlower, ← hupper]
        exact List.filter_append_perm _ both

theorem mem_queueOf {trace : List Request} {k : Fin channels} {r : Request}
    (h : r ∈ queueOf strategy channel bank trace k) :
    r ∈ trace ∧ half (channel r.address) = k := by
  have hmem := (queueOf_perm strategy channel bank trace k).mem_iff.mp h
  simpa using hmem

theorem sum_length_queueOf (trace : List Request) :
    ∑ k, (queueOf strategy channel bank trace k).length = trace.length := by
  rw [← Tally.sum_countP (fun r : Request => half (channel r.address)) trace]
  refine Finset.sum_congr rfl fun k _ => ?_
  rw [(queueOf_perm strategy channel bank trace k).length_eq, List.countP_eq_length_filter]

theorem bucketIn_filter (trace : List Request) (k : Fin channels) (c : Fin pseudoChannels) :
    bucketIn channel (trace.filter fun r => half (channel r.address) = k) c =
      if half c = k then bucketIn channel trace c else [] := by
  unfold bucketIn
  rw [List.filter_filter]
  split
  · next hc =>
    refine List.filter_congr fun r _ => ?_
    by_cases h : channel r.address = c <;> simp [h, hc]
  · next hc =>
    refine List.filter_eq_nil_iff.mpr fun r _ => ?_
    by_cases h : channel r.address = c <;> simp [h, hc]

theorem arrange_nil : arrange strategy bank [] = [] :=
  (arrange_perm strategy bank []).eq_nil

/-- Without the requests of the other channels the queue of a channel is the same, and the other
queues are empty. -/
theorem queueOf_filter (trace : List Request) (k j : Fin channels) :
    queueOf strategy channel bank (trace.filter fun r => half (channel r.address) = k) j =
      if j = k then queueOf strategy channel bank trace k else [] := by
  have hlower : half (lower j) = j := half_eq_iff.mpr (.inl rfl)
  have hupper : half (upper j) = j := half_eq_iff.mpr (.inr rfl)
  unfold queueOf
  rw [bucketIn_filter, bucketIn_filter, hlower, hupper]
  by_cases h : j = k
  · subst h
    simp
  · simp [h, arrange_nil]

end Distribution

end MemoryReplay
