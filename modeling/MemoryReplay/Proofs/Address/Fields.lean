import MemoryReplay.Memory.Latency

/-!
# Address fields inside the address

Fields that lie inside the address are read without an error, so that each of them is a function
of the address.

- `half`: the channel of a pseudo-channel.
- `AddressFields.Inside`: the fields lie inside the address.
- `channel`, `bank`, `row`, `slot`: the fields, and the place of a bank among all banks.
- `slot_div_banks`: banks of different pseudo-channels have different places.
-/

namespace MemoryReplay

/-- The channel that serves a pseudo-channel. -/
def half (channel : Fin pseudoChannels) : Fin channels :=
  ⟨channel.val / 2, by have := channel.isLt; unfold pseudoChannels at this; unfold channels; omega⟩

namespace AddressFields

/-- All fields lie inside the address, and the bank field is narrow. -/
structure Inside (fields : AddressFields) : Prop where
  channel : fields.channelShift.toNat < 64
  bank : fields.bankShift.toNat < 64
  width : fields.bankBits.toNat ≤ 8
  row : fields.rowShift.toNat < 64

variable (fields : AddressFields)

/-- The pseudo-channel of an address. -/
def channel (a : UInt64) : Fin pseudoChannels :=
  ⟨(a.toNat >>> fields.channelShift.toNat) % pseudoChannels, Nat.mod_lt _ (by decide)⟩

/-- Banks of a pseudo-channel. -/
def banks : Nat := 1 <<< fields.bankBits.toNat

/-- The bank of an address inside its pseudo-channel. -/
def bank (a : UInt64) : Nat := (a.toNat >>> fields.bankShift.toNat) % fields.banks

/-- The row of an address. -/
def row (a : UInt64) : Nat := a.toNat >>> fields.rowShift.toNat

/-- The place of an address's bank among all banks. -/
def slot (a : UInt64) : Nat := fields.channel a * fields.banks + fields.bank a

theorem banks_pos : 0 < fields.banks := by
  unfold banks
  rw [Nat.one_shiftLeft]
  exact Nat.two_pow_pos _

theorem bank_lt (a : UInt64) : fields.bank a < fields.banks :=
  Nat.mod_lt _ fields.banks_pos

theorem slot_div_banks (a : UInt64) : fields.slot a / fields.banks = fields.channel a := by
  unfold slot
  rw [Nat.mul_comm, Nat.mul_add_div fields.banks_pos, Nat.div_eq_of_lt (fields.bank_lt a),
    Nat.add_zero]

theorem slot_lt (a : UInt64) : fields.slot a < pseudoChannels * fields.banks := by
  rw [← Nat.div_lt_iff_lt_mul fields.banks_pos, slot_div_banks]
  exact (fields.channel a).isLt

/-- Addresses of different pseudo-channels lie in different banks. -/
theorem channel_eq_of_slot_eq {a b : UInt64} (h : fields.slot a = fields.slot b) :
    fields.channel a = fields.channel b := by
  refine Fin.ext ?_
  rw [← slot_div_banks, h, slot_div_banks]

variable {fields : AddressFields}

/-- An address has a pseudo-channel if the field begins inside the address. -/
theorem channelOf?_eq_some_iff {a : UInt64} {j : Fin pseudoChannels} :
    fields.channelOf? a = some j ↔ fields.channelShift.toNat < 64 ∧ fields.channel a = j := by
  unfold channelOf? Word.above?
  by_cases h : fields.channelShift.toNat < 64
  · rw [if_pos h]
    exact ⟨fun e => ⟨h, Option.some.inj e⟩, fun e => congrArg some e.2⟩
  · rw [if_neg h]
    exact ⟨fun e => absurd e.symm (Option.some_ne_none j), fun e => absurd e.1 h⟩

namespace Inside

theorem channelOf?_eq (h : fields.Inside) (a : UInt64) :
    fields.channelOf? a = some (fields.channel a) :=
  channelOf?_eq_some_iff.mpr ⟨h.channel, rfl⟩

theorem banks?_eq (h : fields.Inside) : fields.banks? = some fields.banks := by
  have hwidth : fields.bankBits.toNat < 64 := Nat.lt_of_le_of_lt h.width (by decide)
  simp [banks?, hwidth, banks]

theorem bankOf?_eq (h : fields.Inside) (a : UInt64) : fields.bankOf? a = some (fields.bank a) := by
  simp [bankOf?, Word.above?, h.bank, h.banks?_eq, AddressFields.bank]

theorem rowOf?_eq (h : fields.Inside) (a : UInt64) : fields.rowOf? a = some (fields.row a) := by
  simp [rowOf?, Word.above?, h.row, AddressFields.row]

theorem slotOf_eq (h : fields.Inside) (a : UInt64) :
    RowBuffer.slotOf fields a = some (fields.slot a) := by
  simp [RowBuffer.slotOf, h.channelOf?_eq, h.banks?_eq, h.bankOf?_eq, slot]

/-- The open rows of so many banks can be kept. -/
theorem banks_le_maxBanks (h : fields.Inside) :
    pseudoChannels * fields.banks ≤ RowBuffer.maxBanks := by
  have hbanks : fields.banks ≤ 2 ^ 8 := by
    unfold banks
    rw [Nat.one_shiftLeft]
    exact Nat.pow_le_pow_right (by decide) h.width
  calc pseudoChannels * fields.banks
      _ ≤ pseudoChannels * 2 ^ 8 := Nat.mul_le_mul_left _ hbanks
      _ ≤ RowBuffer.maxBanks := by decide

end Inside

end AddressFields

end MemoryReplay
