import MemoryReplay.Proofs.Memory.Service

/-!
# Fields that addresses reach

A field reads some bits of an address as a number. Where it ends inside the address it takes all
values of its width; where it reads on past the top, the bits that are missing are zero, and larger
values are not reached. The check of a configuration keeps the pseudo-channel inside the address. Of
the bank it looks at the lowest bit only, so that its field may be cut off.

- `exists_above_iff`, `exists_field_iff`: the numbers that a field reads.
- `AddressFields.exists_channel`, `AddressFields.exists_bank_iff`: the pseudo-channels and the banks
  that are reached. `AddressFields.all_banks_iff`: when these are all.
- `fields_reached`: the fields of a configuration that passes its check.
-/

namespace MemoryReplay

/-! ### The numbers that a field reads -/

/-- The bits of a word from a position on read every number that has so few bits, and no other. -/
theorem exists_above_iff {shift n : Nat} (hshift : shift < 64) :
    (∃ a : UInt64, a.toNat >>> shift = n) ↔ n < 2 ^ (64 - shift) := by
  have hsplit : 2 ^ shift * 2 ^ (64 - shift) = UInt64.size := by
    rw [← Nat.pow_add, Nat.add_sub_cancel' (Nat.le_of_lt hshift)]
  constructor
  · rintro ⟨a, rfl⟩
    rw [Nat.shiftRight_eq_div_pow]
    exact Nat.div_lt_of_lt_mul (hsplit ▸ a.toNat_lt)
  · intro h
    have hfits : 2 ^ shift * n < UInt64.size :=
      hsplit ▸ Nat.mul_lt_mul_of_pos_left h (Nat.two_pow_pos shift)
    refine ⟨UInt64.ofNat (2 ^ shift * n), ?_⟩
    rw [UInt64.toNat_ofNat_of_lt' hfits, Nat.shiftRight_eq_div_pow,
      Nat.mul_div_cancel_left n (Nat.two_pow_pos shift)]

/-- A field of some width reads every number of that width, as far as the address goes. -/
theorem exists_field_iff {shift width n : Nat} (hshift : shift < 64) :
    (∃ a : UInt64, (a.toNat >>> shift) % 2 ^ width = n) ↔
      n < 2 ^ width ∧ n < 2 ^ (64 - shift) := by
  constructor
  · rintro ⟨a, rfl⟩
    refine ⟨Nat.mod_lt _ (Nat.two_pow_pos width), ?_⟩
    exact Nat.lt_of_le_of_lt (Nat.mod_le _ _) ((exists_above_iff hshift).mp ⟨a, rfl⟩)
  · rintro ⟨hwidth, habove⟩
    obtain ⟨a, ha⟩ := (exists_above_iff hshift).mpr habove
    exact ⟨a, by rw [ha, Nat.mod_eq_of_lt hwidth]⟩

namespace AddressFields

variable {fields : AddressFields}

/-- Every pseudo-channel is that of some address if its four bits lie inside the address. -/
theorem exists_channel (h : fields.channelShift.toNat ≤ 60) (j : Fin pseudoChannels) :
    ∃ a, fields.channelOf? a = some j := by
  have hshift : fields.channelShift.toNat < 64 := by omega
  have htop : 2 ^ 4 ≤ 2 ^ (64 - fields.channelShift.toNat) :=
    Nat.pow_le_pow_right (by decide) (by omega)
  have hj : j.val < 2 ^ 4 := j.isLt
  obtain ⟨a, ha⟩ := (exists_field_iff hshift).mpr ⟨hj, Nat.lt_of_lt_of_le hj htop⟩
  exact ⟨a, channelOf?_eq_some_iff.mpr ⟨hshift, Fin.ext ha⟩⟩

theorem banks_eq (fields : AddressFields) : fields.banks = 2 ^ fields.bankBits.toNat :=
  Nat.one_shiftLeft _

/-- The banks of addresses are those with bits inside the address only. -/
theorem exists_bank_iff (h : fields.Inside) {b : Nat} : (∃ a, fields.bankOf? a = some b) ↔
    b < fields.banks ∧ b < 2 ^ (64 - fields.bankShift.toNat) := by
  rw [banks_eq, ← exists_field_iff h.bank]
  simp only [h.bankOf?_eq, bank, banks_eq, Option.some.injEq]

/-- All banks are those of addresses if and only if the field ends inside the address. -/
theorem all_banks_iff (h : fields.Inside) :
    (∀ b < fields.banks, ∃ a, fields.bankOf? a = some b) ↔
      fields.bankShift.toNat + fields.bankBits.toNat ≤ 64 := by
  simp only [exists_bank_iff h]
  have hbank := h.bank
  constructor
  · intro hall
    -- the last bank is reached
    have hlast := (hall (fields.banks - 1) (Nat.sub_one_lt (Nat.ne_of_gt fields.banks_pos))).2
    rw [banks_eq] at hlast
    have hpow : 2 ^ fields.bankBits.toNat ≤ 2 ^ (64 - fields.bankShift.toNat) := by omega
    have hwidth := (Nat.pow_le_pow_iff_right (by decide)).mp hpow
    omega
  · intro hinside b hb
    refine ⟨hb, Nat.lt_of_lt_of_le hb ?_⟩
    rw [banks_eq]
    exact Nat.pow_le_pow_right (by decide) (by omega)

end AddressFields

/-- **The pseudo-channel of a configuration that passes its check lies inside the address, and its
bank begins there.** So every pseudo-channel is that of some address. A bank is that of some address
if it has a number that the rest of the address can hold, which is true of all banks exactly if
their field ends inside the address. -/
theorem fields_reached (c : MemoryConfig) (hvalid : c.validate = .ok ()) :
    (∀ j, ∃ a, c.fields.channelOf? a = some j) ∧
    ∃ banks, c.fields.banks? = some banks ∧
      (∀ b, (∃ a, c.fields.bankOf? a = some b) ↔
        b < banks ∧ b < 2 ^ (64 - c.fields.bankShift.toNat)) ∧
      ((∀ b < banks, ∃ a, c.fields.bankOf? a = some b) ↔
        c.fields.bankShift.toNat + c.fields.bankBits.toNat ≤ 64) := by
  have hplaced := MemoryConfig.accepted_of_validate hvalid
  have hinside := (MemoryConfig.usable_of_validate hvalid).fields
  refine ⟨AddressFields.exists_channel hplaced.channel, c.fields.banks, hinside.banks?_eq, ?_, ?_⟩
  · exact fun b => AddressFields.exists_bank_iff hinside
  · exact AddressFields.all_banks_iff hinside

/-- A memory whose four bank bits are the highest ones of the address. -/
def topBanks : MemoryConfig := { fields := ⟨10, 60, 4, 18⟩ }

/-- Its last bank is that of an address. -/
theorem fields_reached_topBanks : topBanks.validate = .ok () ∧
    (∀ j, ∃ a, topBanks.fields.channelOf? a = some j) ∧
    topBanks.fields.banks? = some 16 ∧ ∃ a, topBanks.fields.bankOf? a = some 15 := by
  obtain ⟨hchannels, banks, hbanks, -, hall⟩ := fields_reached topBanks rfl
  obtain rfl : 16 = banks := Option.some.inj hbanks
  exact ⟨rfl, hchannels, hbanks, hall.mpr (by decide) 15 (by decide)⟩

/-- A memory with four bank bits of which the address has only the lowest. -/
def cutBanks : MemoryConfig := { fields := ⟨10, 63, 4, 18⟩ }

/-- It passes the check, and fourteen of its sixteen banks are those of no address. -/
theorem banks_unreached_cutBanks : cutBanks.validate = .ok () ∧
    cutBanks.fields.banks? = some 16 ∧
    ∀ b, 2 ≤ b → b < 16 → ¬ ∃ a, cutBanks.fields.bankOf? a = some b := by
  have hinside : cutBanks.fields.Inside := (MemoryConfig.usable_of_validate rfl).fields
  refine ⟨rfl, rfl, fun b hb _ hreached => ?_⟩
  have hsmall : b < 2 ^ 1 := ((AddressFields.exists_bank_iff hinside).mp hreached).2
  omega

end MemoryReplay
