import Mathlib.Data.List.Forall2
import MemoryReplay.Proofs.Checked
import MemoryReplay.Proofs.Distribution.Queues

/-!
# Distributions that succeed

A distribution asks for the pseudo-channel of every request, and for its bank where the strategy
looks at banks. If it succeeds, all these questions had an answer. The answers are functions of the
address, and the queues are those that `queueOf` makes with them.

- `Sequential`: outcomes of which a sequence succeeds only if both of its parts do.
  `forall₂_of_mapM`, `get_of_mapM`: then a list or table of questions had an answer to each.
- `classify_eq_ok`, `eq_arrange_of_order`: what the two passes over a trace have found.
- `distribute_eq_ok`: the queues of a distribution that succeeded.
-/

namespace MemoryReplay

namespace Distribution

/-! ### Lists of questions -/

/-- Outcomes of which a sequence succeeds only if both of its parts do. -/
structure Sequential (m : Type → Type) [Monad m] : Prop where
  parts : ∀ {α β : Type} {x : m α} {next : α → m β} {b : β}, x >>= next = pure b →
    ∃ a, x = pure a ∧ next a = pure b
  result : ∀ {α : Type} {a b : α}, (pure a : m α) = pure b → a = b

theorem sequential_option : Sequential Option where
  parts h := Option.bind_eq_some_iff.mp h
  result h := Option.some.inj h

theorem sequential_outcome (ε : Type) : Sequential (Outcome ε) where
  parts h := Outcome.bind_eq_ok_iff.mp h
  result h := Except.ok.inj h

variable {m : Type → Type} [Monad m] [LawfulMonad m] {α β : Type} {n : Nat}

theorem forall₂_of_mapM (hm : Sequential m) {f : α → m β} {l : List α} {l' : List β}
    (h : l.mapM f = pure l') : List.Forall₂ (fun a b => f a = pure b) l l' := by
  induction l generalizing l' with
  | nil =>
    obtain rfl := hm.result h
    exact .nil
  | cons a rest ih =>
    rw [List.mapM_cons] at h
    obtain ⟨b, hb, h⟩ := hm.parts h
    obtain ⟨later, hlater, h⟩ := hm.parts h
    obtain rfl := hm.result h
    exact .cons hb (ih hlater)

/-- The same for the entries of a table. -/
theorem get_of_mapM {f : α → Option β} {v : Vector α n} {w : Vector β n} (h : v.mapM f = some w)
    (i : Fin n) : f (v.get i) = some (w.get i) := by
  have harray : v.toArray.mapM f = some w.toArray := by
    rw [← Vector.toArray_mapM, h]
    rfl
  rw [Array.mapM_eq_mapM_toList] at harray
  obtain ⟨l, hl, hlist⟩ := Option.map_eq_some_iff.mp harray
  obtain rfl : l = w.toArray.toList := congrArg Array.toList hlist
  have hall := forall₂_of_mapM sequential_option hl
  exact (List.forall₂_iff_get.mp hall).2 i.val (by simp) (by simp)

/-! ### The two passes over a trace -/

variable {channelOf bankOf : UInt64 → Checked Nat} {strategy : Strategy} {trace : List Request}

/-- The pseudo-channel of an address, where it has one. -/
def channelIn (channelOf : UInt64 → Checked Nat) (a : UInt64) : Fin pseudoChannels :=
  ⟨(channelOf a).getD 0 % pseudoChannels, Nat.mod_lt _ (by decide)⟩

/-- The bank of an address, where it has one. -/
def bankIn (bankOf : UInt64 → Checked Nat) (a : UInt64) : Nat := (bankOf a).getD 0

theorem channelIn_eq {a : UInt64} {n : Nat} (h : channelOf a = some n) (hn : n < pseudoChannels) :
    channelIn channelOf a = ⟨n, hn⟩ := by
  unfold channelIn
  simp only [h, Option.getD_some, Nat.mod_eq_of_lt hn]

theorem tag_eq_ok {r : Request} {p : Fin pseudoChannels × Request} (h : tag channelOf r = .ok p) :
    channelOf r.address = some (channelIn channelOf r.address).val ∧
      (channelIn channelOf r.address, r) = p := by
  obtain ⟨n, hn, h⟩ := (sequential_outcome SimError).parts h
  have hchannel : channelOf r.address = some n := Outcome.ofChecked_eq_ok hn
  by_cases hinside : n < pseudoChannels
  · rw [dif_pos hinside] at h
    rw [channelIn_eq hchannel hinside]
    exact ⟨hchannel, Except.ok.inj h⟩
  · rw [dif_neg hinside] at h
    cases h

/-- The buckets of a trace hold its requests by pseudo-channel. -/
theorem classify_eq_ok {buckets : Vector (List Request) pseudoChannels}
    (h : classify channelOf trace = .ok buckets) :
    (∀ r ∈ trace, channelOf r.address = some (channelIn channelOf r.address).val) ∧
      buckets = Vector.ofFn (bucketIn (channelIn channelOf) trace) := by
  obtain ⟨tagged, htagged, h⟩ := (sequential_outcome SimError).parts h
  obtain rfl := Except.ok.inj h
  have hall := (forall₂_of_mapM (sequential_outcome SimError) htagged).imp fun _ _ => tag_eq_ok
  obtain ⟨hchannels, hpairs⟩ := (List.forall₂_and_left ..).mp hall
  rw [← List.forall₂_map_left_iff, List.forall₂_eq_eq_eq] at hpairs
  refine ⟨hchannels, ?_⟩
  rw [← hpairs]
  congr 1
  funext c
  exact bucketOf_map (channelIn channelOf) trace c

/-- A bucket was brought into the order of the strategy. -/
theorem eq_arrange_of_order {bucket out : List Request}
    (h : order strategy bankOf bucket = some out) :
    out = arrange strategy (bankIn bankOf) bucket := by
  cases strategy with
  | roundRobin => exact (Option.some.inj h).symm
  | rowLocality => exact (Option.some.inj h).symm
  | bankParallel =>
    obtain ⟨banked, hbanked, h⟩ := Option.bind_eq_some_iff.mp h
    obtain rfl := Option.some.inj h
    have hall := (forall₂_of_mapM sequential_option hbanked).imp
      (S := fun r p => (bankIn bankOf r.address, r) = p) fun r p hr => by
        obtain ⟨bank, hbank, rfl⟩ := Option.map_eq_some_iff.mp hr
        unfold bankIn
        rw [hbank]
        rfl
    rw [← List.forall₂_map_left_iff, List.forall₂_eq_eq_eq] at hall
    rw [← hall]
    rfl

/-- **The queues of a distribution that succeeded**: every request has a pseudo-channel, and the
queues are those that the pseudo-channels and banks of the addresses make. -/
theorem distribute_eq_ok {queues : Vector (List Request) channels}
    (h : distribute channelOf bankOf strategy trace = .ok queues) :
    (∀ r ∈ trace, channelOf r.address = some (channelIn channelOf r.address).val) ∧
      ∀ k, queues.get k = queueOf strategy (channelIn channelOf) (bankIn bankOf) trace k := by
  obtain ⟨buckets, hbuckets, h⟩ := (sequential_outcome SimError).parts h
  obtain ⟨ordered, hordered, h⟩ := (sequential_outcome SimError).parts h
  obtain rfl := Except.ok.inj h
  obtain ⟨hchannels, rfl⟩ := classify_eq_ok hbuckets
  refine ⟨hchannels, fun k => ?_⟩
  have hbucket : ∀ c, ordered.get c =
      arrange strategy (bankIn bankOf) (bucketIn (channelIn channelOf) trace c) := by
    intro c
    have hc := eq_arrange_of_order (get_of_mapM (Outcome.ofChecked_eq_ok hordered) c)
    rwa [Tally.get_ofFn] at hc
  rw [Tally.get_ofFn]
  unfold pair queueOf
  rw [hbucket, hbucket]

end Distribution

end MemoryReplay
