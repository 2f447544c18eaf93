import Mathlib.Algebra.Group.Nat.Defs
import MemoryReplay.Parameter
import MemoryReplay.Word

/-!
# Exact results of checked arithmetic

A checked computation either stops or has the value that exact arithmetic has. A chain of checked
operations can therefore be followed in natural numbers: every one of its results fits, or the chain
ends there. The same goes for the outcomes that such computations are part of.

- `Word.Yields x n`: the computation `x` has a value, and it stands for `n`.
- `Yields.bind`: computations one after the other.
- `yields_add?`, `yields_mul?`, `yields_shiftLeft?`: results that fit.
- `scale?_eq_some_iff`, `ofNat?_eq_none_iff`: results that do not.
- `Checked.mapM_eq_some`, `Outcome.map_of_mapM`: lists of computations.
- `Outcome.bind_eq_ok_iff`, `Outcome.bind_eq_error_iff`: sequences of outcomes.
- `Parameter.exact_ofNat?`, `Parameter.requestCount_eq_ok_iff`: parameters that are to blame.
-/

namespace MemoryReplay

namespace Word

/-- A computation has a value, and it stands for `n`. -/
def Yields (x : Checked UInt64) (n : Nat) : Prop := ∃ w, x = some w ∧ w.toNat = n

variable {x : Checked UInt64} {a b w : UInt64} {n m shift : Nat}

theorem Yields.bind {next : UInt64 → Checked UInt64} (h : Yields x n)
    (hnext : ∀ w, w.toNat = n → Yields (next w) m) : Yields (x >>= next) m := by
  obtain ⟨w, rfl, hw⟩ := h
  exact hnext w hw

/-- The value is the word of the number. -/
theorem Yields.eq_some (h : Yields x n) : x = some (UInt64.ofNat n) := by
  obtain ⟨w, rfl, rfl⟩ := h
  rw [UInt64.ofNat_toNat]

theorem yields_some_iff : Yields (some w) n ↔ w.toNat = n := by
  simp [Yields]

theorem toNat_pos_iff : 0 < w.toNat ↔ w ≠ 0 := by
  rw [Nat.pos_iff_ne_zero, ne_eq, ne_eq, ← UInt64.toNat_inj]
  rfl

theorem ofNat?_toNat (w : UInt64) : ofNat? w.toNat = some w :=
  ofNat?_eq_some_iff.mpr rfl

theorem yields_ofNat? (h : n < UInt64.size) : Yields (ofNat? n) n :=
  ⟨UInt64.ofNat n, if_pos h, UInt64.toNat_ofNat_of_lt' h⟩

theorem yields_add? (ha : a.toNat = n) (hb : b.toNat = m) (h : n + m < UInt64.size) :
    Yields (add? a b) (n + m) := by
  subst ha hb
  exact yields_ofNat? h

theorem yields_mul? (ha : a.toNat = n) (hb : b.toNat = m) (h : n * m < UInt64.size) :
    Yields (mul? a b) (n * m) := by
  subst ha hb
  exact yields_ofNat? h

/-- An index as a word, times another one. -/
theorem yields_multiple (hn : n < UInt64.size) (ha : a.toNat = m) (h : n * m < UInt64.size) :
    Yields (do mul? (← ofNat? n) a) (n * m) :=
  (yields_ofNat? hn).bind fun _ hw => yields_mul? hw ha h

/-- A shift that loses no bit is a product. -/
theorem yields_shiftLeft? (hshift : shift < 64) (ha : a.toNat = n) (h : n * 2 ^ shift < UInt64.size) :
    Yields (shiftLeft? a shift) (n * 2 ^ shift) := by
  subst ha
  refine ⟨a <<< UInt64.ofNat shift, if_pos hshift, ?_⟩
  have hsize : shift < UInt64.size := Nat.lt_trans hshift (by decide)
  rw [UInt64.toNat_shiftLeft, UInt64.toNat_ofNat_of_lt' hsize, Nat.mod_eq_of_lt hshift,
    Nat.shiftLeft_eq]
  exact Nat.mod_eq_of_lt h

theorem ofNat?_eq_none_iff : ofNat? n = none ↔ UInt64.size ≤ n := by
  unfold ofNat?
  split <;> simp <;> omega

/-- It makes no difference where a computation ends that ends anyway. -/
theorem ofNat?_bind {f : Nat → Nat} (h : n ≤ f n) :
    (ofNat? n >>= fun w => ofNat? (f w.toNat)) = ofNat? (f n) := by
  by_cases hn : n < UInt64.size
  · obtain ⟨w, hw, rfl⟩ := yields_ofNat? hn
    rw [hw]
    rfl
  · have hnone : ofNat? n = none := ofNat?_eq_none_iff.mpr (Nat.le_of_not_lt hn)
    rw [hnone, ofNat?_eq_none_iff.mpr (Nat.le_trans (Nat.le_of_not_lt hn) h)]
    rfl

theorem add?_bind_add? (a b c : UInt64) :
    (add? a b >>= fun w => add? w c) = ofNat? (a.toNat + b.toNat + c.toNat) :=
  ofNat?_bind (f := (· + c.toNat)) (Nat.le_add_right _ _)

theorem mul?_bind_add? (a b c : UInt64) :
    (mul? b c >>= fun w => add? a w) = ofNat? (a.toNat + b.toNat * c.toNat) :=
  ofNat?_bind (f := (a.toNat + ·)) (Nat.le_add_left _ _)

theorem scale?_eq (hshift : shift < 64) : scale? a shift = ofNat? (a.toNat * 2 ^ shift) := by
  rw [← Nat.shiftLeft_eq]
  exact if_pos hshift

theorem scale?_eq_some_iff :
    scale? a shift = some w ↔ shift < 64 ∧ w.toNat = a.toNat * 2 ^ shift := by
  by_cases hshift : shift < 64
  · rw [scale?_eq hshift, ofNat?_eq_some_iff]
    exact (and_iff_right hshift).symm
  · unfold scale?
    rw [if_neg hshift]
    exact ⟨nofun, fun h => absurd h.1 hshift⟩

end Word

/-- A list of computations that all have a value. -/
theorem Checked.mapM_eq_some {α β : Type} {items : List α} {f : α → Checked β} {value : α → β}
    (h : ∀ a ∈ items, f a = some (value a)) : items.mapM f = some (items.map value) := by
  induction items with
  | nil => rfl
  | cons first rest ih =>
    rw [List.mapM_cons, h first List.mem_cons_self, ih fun a ha => h a (List.mem_cons_of_mem _ ha)]
    rfl

/-- The first of them. -/
theorem Checked.mapM_take {α β : Type} {items : List α} {f : α → Checked β} {values : List β}
    {n : Nat} (h : items.mapM f = some values) : (items.take n).mapM f = some (values.take n) := by
  induction items generalizing n values with
  | nil =>
    obtain rfl : [] = values := Option.some.inj h
    cases n <;> rfl
  | cons first rest ih =>
    rw [List.mapM_cons] at h
    obtain ⟨value, hfirst, h⟩ := Option.bind_eq_some_iff.mp h
    obtain ⟨later, hrest, h⟩ := Option.bind_eq_some_iff.mp h
    obtain rfl : value :: later = values := Option.some.inj h
    cases n with
    | zero => rfl
    | succ n =>
      rw [List.take_succ_cons, List.mapM_cons, hfirst, ih hrest]
      rfl

/-- A sequence succeeds if both of its parts do. -/
theorem Outcome.bind_eq_ok_iff {ε α β : Type} {x : Except ε α} {next : α → Except ε β} {b : β} :
    x >>= next = .ok b ↔ ∃ a, x = .ok a ∧ next a = .ok b := by
  cases x <;> simp [bind, Except.bind]

theorem Outcome.map_some_eq_ok_iff {ε α : Type} {x : Except ε α} {a : α} :
    x.map some = .ok (some a) ↔ x = .ok a := by
  cases x <;> simp [Except.map]

/-- What the results of a list of computations show is known if that of each one is. -/
theorem Outcome.map_of_mapM {ε α β γ : Type} {items : List α} {f : α → Except ε β} {values : List β}
    {read : β → γ} {value : α → γ} (h : items.mapM f = .ok values)
    (hread : ∀ a b, f a = .ok b → read b = value a) : values.map read = items.map value := by
  induction items generalizing values with
  | nil =>
    obtain rfl : [] = values := Except.ok.inj h
    rfl
  | cons first rest ih =>
    rw [List.mapM_cons] at h
    obtain ⟨b, hfirst, h⟩ := bind_eq_ok_iff.mp h
    obtain ⟨later, hrest, h⟩ := bind_eq_ok_iff.mp h
    obtain rfl : b :: later = values := Except.ok.inj h
    rw [List.map_cons, List.map_cons, hread first b hfirst, ih hrest]

/-- A sequence fails if one of its parts does. -/
theorem Outcome.bind_eq_error_iff {ε α β : Type} {x : Except ε α} {next : α → Except ε β} {e : ε} :
    x >>= next = .error e ↔ x = .error e ∨ ∃ a, x = .ok a ∧ next a = .error e := by
  cases x <;> simp [bind, Except.bind]

theorem Outcome.mapReported_eq_reported_iff {ε δ α : Type} {f : ε → δ} {x : Outcome ε α} {d : δ} :
    mapReported f x = .error (.reported d) ↔ ∃ e, x = .error (.reported e) ∧ f e = d := by
  rcases x with ⟨e | _⟩ | _ <;> simp [mapReported]

theorem Outcome.ofChecked_eq_ok {ε α : Type} {x : Checked α} {a : α}
    (h : (ofChecked x : Outcome ε α) = .ok a) : x = some a := by
  cases x with
  | none => cases h
  | some _ => exact congrArg some (Except.ok.inj h)

theorem Outcome.ofChecked_ne_reported {ε α : Type} {x : Checked α} {e : ε} :
    (ofChecked x : Outcome ε α) ≠ .error (.reported e) := by
  cases x <;> nofun

theorem Outcome.ofExcept_eq_ok {ε α : Type} {x : Except ε α} {a : α}
    (h : (ofExcept x : Outcome ε α) = .ok a) : x = .ok a := by
  cases x with
  | error _ => cases h
  | ok _ => exact congrArg Except.ok (Except.ok.inj h)

theorem Outcome.ofExcept_ne_overflow {ε α : Type} {x : Except ε α} :
    (ofExcept x : Outcome ε α) ≠ .error .overflow := by
  cases x <;> nofun

/-- A loop over checks succeeds only if each of them does. -/
theorem Outcome.of_forIn_eq_ok {ε α β : Type} {items : List α} {check : α → Except ε β} {u : PUnit}
    (h : (forIn items PUnit.unit fun a _ => do
      let _ ← check a
      pure (ForInStep.yield PUnit.unit)) = .ok u) : ∀ a ∈ items, ∃ b, check a = .ok b := by
  induction items with
  | nil => exact fun _ ha => absurd ha List.not_mem_nil
  | cons first rest ih =>
    rw [List.forIn_cons, bind_assoc] at h
    obtain ⟨b, hb, h⟩ := bind_eq_ok_iff.mp h
    intro a ha
    rcases List.mem_cons.mp ha with rfl | ha
    · exact ⟨b, hb⟩
    · exact ih h a ha

namespace Parameter

variable {name : String} {n : Nat}

/-- A parameter is to blame if and only if the exact number does not fit. -/
theorem exact_ofNat? (name : String) (n : Nat) : exact name (Word.ofNat? n) =
    if UInt64.size ≤ n then .error ⟨name, .addressOverflow⟩ else .ok (UInt64.ofNat n) := by
  by_cases hn : UInt64.size ≤ n
  · rw [if_pos hn, Word.ofNat?_eq_none_iff.mpr hn]
    rfl
  · rw [if_neg hn, (Word.yields_ofNat? (Nat.lt_of_not_le hn)).eq_some]
    rfl

theorem exact_eq_ok_iff {α : Type} {x : Checked α} {a : α} : exact name x = .ok a ↔ x = some a := by
  cases x <;> simp [exact]

theorem requestCount_eq_ok_iff {count : Checked UInt64} : requestCount name count = .ok n ↔
    Word.Yields count n ∧ n ≤ maxRequests := by
  constructor
  · intro h
    obtain ⟨w, hw, h⟩ := Outcome.bind_eq_ok_iff.mp h
    split at h
    · next hlimit =>
      obtain rfl := Except.ok.inj h
      exact ⟨⟨w, exact_eq_ok_iff.mp hw, rfl⟩, hlimit⟩
    · cases h
  · rintro ⟨⟨w, rfl, rfl⟩, hlimit⟩
    exact if_pos hlimit

end Parameter

end MemoryReplay
