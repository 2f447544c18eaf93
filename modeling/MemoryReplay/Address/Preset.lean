import MemoryReplay.Address.Permutation

/-!
# Named bit permutations

The mappings studied on a stacked memory with sixteen pseudo-channels. Each one rearranges the
low 32 bits and leaves the high 32 in place.

- `Preset`: the names, as a configuration spells them (`Preset.name`).
- `Preset.permutation`: the permutation a name stands for.
-/

namespace MemoryReplay

/-- A named bit permutation. -/
inductive Preset where
  /-- Nothing moves. -/
  | identity
  /-- Bits 5 to 13 are spread over the channel and bank fields. -/
  | channelInterleave
  /-- Row, rank, bank group, bank, channel, column from the top down. -/
  | rowRankBank
  /-- Offset, column, channel, bank group and bank, row from the bottom up. -/
  | stackedArray
  deriving Repr, DecidableEq

namespace Preset

/-- Every preset. -/
def all : List Preset := [identity, channelInterleave, rowRankBank, stackedArray]

/-- The name of a preset in a configuration. -/
def name : Preset → String
  | identity => "identity"
  | channelInterleave => "channel_interleave"
  | rowRankBank => "rorabgbachco"
  | stackedArray => "hbm2e_fpga"

/-- The preset of a name. -/
def ofName? (name : String) : Option Preset :=
  all.find? (·.name == name)

/-- The places of the low 32 bits in the interleaved mapping. -/
def channelInterleaveLow : Vector (Fin 64) 32 :=
  #v[0, 1, 2, 3, 4,
     5, 29, 28, 10, 11, 14, 15, 16, 17,
     6, 7, 30, 12, 18, 19, 20, 21, 22,
     8, 9, 31, 13, 23, 24, 25, 26, 27]

/-- The places of the low 32 bits in the row, rank, bank order. -/
def rowRankBankLow : Vector (Fin 64) 32 :=
  #v[0, 1, 2, 3, 4,
     28, 29, 5, 10, 14, 15, 16, 17, 18,
     30, 6, 11, 12, 19, 20, 21, 22, 23,
     31, 7, 8, 9, 13, 24, 25, 26, 27]

/-- The places of the low 32 bits in the order of a stacked array: offset, column, channel, bank
group and bank, row. -/
def stackedArrayLow : Vector (Fin 64) 32 :=
  #v[0, 1, 2, 3, 4,
     5, 6, 7, 8, 9,
     28, 29, 30, 31,
     10, 11, 12, 13,
     14, 15, 16, 17, 18, 19, 20,
     21, 22, 23, 24, 25, 26, 27]

/-- The high 32 bits in their own places. -/
def high : Vector (Fin 64) 32 := Vector.ofFn fun i => ⟨32 + i.val, by omega⟩

/-- The permutation that a preset names. -/
def permutation : Preset → BitPermutation
  | identity => .identity
  | channelInterleave => ⟨channelInterleaveLow ++ high, by decide⟩
  | rowRankBank => ⟨rowRankBankLow ++ high, by decide⟩
  | stackedArray => ⟨stackedArrayLow ++ high, by decide⟩

theorem ofName?_name (p : Preset) : ofName? p.name = some p := by
  cases p <;> decide

end Preset

end MemoryReplay
