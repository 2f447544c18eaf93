import Mathlib.Tactic.SplitIfs
import MemoryReplay.TraceFile.Reader

/-!
# Lines of text as bytes

A file is bytes, and the lines that are written to it are texts. No character but the line end has
the byte of a line end in its encoding, so the lines of the bytes are the texts that were written.

- `utf8`: the bytes of a text, as they stand in a file. `text?_utf8`: they are read back.
- `lineEnd_notMem_utf8`: where the byte of a line end does not occur.
- `lines_append`, `lines_utf8_unlines`: the lines of what was written line by line.
-/

namespace MemoryReplay

namespace Text

/-- The bytes of a text. -/
def utf8 (s : String) : List UInt8 := s.toUTF8.toList

theorem toList_loop_eq (bytes : ByteArray) (i : Nat) (seen : List UInt8) :
    ByteArray.toList.loop bytes i seen = seen.reverse ++ bytes.data.toList.drop i := by
  fun_induction ByteArray.toList.loop bytes i seen with
  | case1 i seen h ih =>
    have hi : i < bytes.data.toList.length := h
    have hget : bytes.get! i = bytes.data.toList[i] := by
      show bytes.data[i]! = _
      rw [getElem!_pos bytes.data i h, Array.getElem_toList]
    rw [ih, List.drop_eq_getElem_cons hi, hget, List.reverse_cons, List.append_assoc]
    rfl
  | case2 i seen h =>
    have hi : bytes.data.toList.length ≤ i := Nat.le_of_not_lt h
    rw [List.drop_eq_nil_of_le hi, List.append_nil]

theorem toList_eq_data (bytes : ByteArray) : bytes.toList = bytes.data.toList :=
  toList_loop_eq bytes 0 []

theorem utf8_eq_flatMap (s : String) : utf8 s = s.toList.flatMap String.utf8EncodeChar := by
  unfold utf8
  rw [toList_eq_data, String.toUTF8_eq_toByteArray, ← String.utf8Encode_toList, List.utf8Encode,
    List.toList_data_toByteArray]

theorem utf8_append (s t : String) : utf8 (s ++ t) = utf8 s ++ utf8 t := by
  rw [utf8_eq_flatMap, utf8_eq_flatMap, utf8_eq_flatMap, String.toList_append, List.flatMap_append]

theorem utf8_nil : utf8 "" = [] := utf8_eq_flatMap ""

theorem utf8_newline : utf8 "\n" = [TraceFile.lineEnd] := utf8_eq_flatMap "\n"

/-- In an encoding of several bytes none is an ASCII character. -/
theorem lineEnd_mem_utf8EncodeChar {c : Char} (h : TraceFile.lineEnd ∈ String.utf8EncodeChar c) :
    c = '\n' := by
  have hbyte : ∀ n, TraceFile.lineEnd = UInt8.ofNat n → n % 256 = 10 := by
    intro n hn
    have hnat := congrArg UInt8.toNat hn
    rw [UInt8.toNat_ofNat'] at hnat
    exact hnat.symm
  unfold String.utf8EncodeChar at h
  dsimp only at h
  split_ifs at h with hone htwo hthree
  · have hcode := hbyte _ (List.mem_singleton.mp h)
    refine Char.ext (UInt32.toNat_inj.mp ?_)
    show c.val.toNat = 10
    omega
  all_goals
    simp only [List.mem_cons, List.not_mem_nil, or_false] at h
  · rcases h with h | h <;> have hcode := hbyte _ h <;> omega
  · rcases h with h | h | h <;> have hcode := hbyte _ h <;> omega
  · rcases h with h | h | h | h <;> have hcode := hbyte _ h <;> omega

theorem lineEnd_notMem_utf8 {s : String} (h : '\n' ∉ s.toList) : TraceFile.lineEnd ∉ utf8 s := by
  rw [utf8_eq_flatMap]
  intro hmem
  obtain ⟨c, hc, hbyte⟩ := List.mem_flatMap.mp hmem
  exact h (lineEnd_mem_utf8EncodeChar hbyte ▸ hc)

end Text

namespace TraceFile

open Text

/-- Text is read back from its bytes. -/
theorem text?_utf8 (s : String) : text? (utf8 s) = some s.toList := by
  have hbytes : (⟨(utf8 s).toArray⟩ : ByteArray) = s.toByteArray := by
    unfold utf8
    rw [toList_eq_data, String.toUTF8_eq_toByteArray]
  unfold text? String.fromUTF8?
  rw [hbytes, dif_pos s.isValidUTF8]
  rfl

/-- A line ends at the first byte that ends lines. -/
theorem lines_append {line : List UInt8} (h : lineEnd ∉ line) (rest : List UInt8) :
    lines (line ++ lineEnd :: rest) = line :: lines rest := by
  induction line with
  | nil => rw [List.nil_append, lines, if_pos rfl]
  | cons b line ih =>
    obtain ⟨hb, hline⟩ := not_or.mp (mt List.mem_cons.mpr h)
    rw [List.cons_append, lines, if_neg (Ne.symm hb), ih hline]

/-- What was written line by line is read line by line. -/
theorem lines_utf8_unlines {texts : List String} (h : ∀ s ∈ texts, '\n' ∉ s.toList) :
    lines (utf8 (unlines texts)) = texts.map utf8 := by
  induction texts with
  | nil =>
    show lines (utf8 "") = []
    rw [utf8_nil, lines]
  | cons s texts ih =>
    have hs := lineEnd_notMem_utf8 (h s List.mem_cons_self)
    have hsplit : utf8 (unlines (s :: texts)) = utf8 s ++ lineEnd :: utf8 (unlines texts) := by
      have hjoin : unlines (s :: texts) = s ++ ("\n" ++ unlines texts) := by
        unfold unlines
        rw [List.map_cons, String.join_cons, String.append_assoc]
      rw [hjoin, utf8_append, utf8_append, utf8_newline, List.singleton_append]
    rw [hsplit, lines_append hs, ih fun t ht => h t (List.mem_cons_of_mem _ ht), List.map_cons]

end TraceFile

end MemoryReplay
