import Mathlib.Data.List.Basic
import MemoryReplay.Text.Line

/-!
# Fields of a text

The fields of a text are found from its end, one character at a time. Here they are found from its
start, one field at a time: blanks, a field, and what stands behind it.

- `fields_run`: a run of characters without a blank, up to a blank or to the end, is a field.
- `fields_blanks_append`: blanks before a text do not matter.
- `IsField`, `fields_eq_nil_iff`, `fields_eq_cons_iff`: which texts have given fields.
-/

namespace MemoryReplay.Text

variable {cs run : List Char} {runs : List (List Char)} {c : Char}

/-- A text that can stand alone as a field. -/
structure IsField (run : List Char) : Prop where
  nonempty : run ≠ []
  solid : ∀ c ∈ run, isBlank c = false

/-- A text behind which a field can stand, or before which one ends: it starts with a blank if it
starts at all. -/
def StartsBlank (cs : List Char) : Prop := ∀ c ∈ cs.head?, isBlank c = true

theorem startsBlank_nil : StartsBlank [] := nofun

theorem startsBlank_cons (h : isBlank c = true) (cs : List Char) : StartsBlank (c :: cs) := by
  rintro d hd
  obtain rfl := Option.mem_some.mp hd
  exact h

theorem startsBlank_of_allBlank (h : allBlank cs = true) : StartsBlank cs :=
  fun c hc => List.all_eq_true.mp h c (List.mem_of_mem_head? hc)

/-- Blanks, of which there are some, and anything behind them. -/
theorem startsBlank_append (hne : cs ≠ []) (h : allBlank cs = true) (after : List Char) :
    StartsBlank (cs ++ after) := by
  obtain ⟨c, cs, rfl⟩ := List.exists_cons_of_ne_nil hne
  exact startsBlank_cons (List.all_eq_true.mp h c List.mem_cons_self) _

theorem StartsBlank.append (h : StartsBlank cs) {after : List Char} (hafter : StartsBlank after) :
    StartsBlank (cs ++ after) := by
  cases cs with
  | nil => exact hafter
  | cons d cs => exact h

/-! ### Fields from the start -/

theorem fields_cons_of_blank (h : isBlank c = true) (cs : List Char) :
    fields (c :: cs) = fields cs := by
  conv_lhs => unfold fields
  rw [if_pos h]

/-- A character before a blank is a field of its own. -/
theorem fields_cons_of_startsBlank (h : isBlank c = false) (hcs : StartsBlank cs) :
    fields (c :: cs) = [c] :: fields cs := by
  conv_lhs => unfold fields
  rw [h, if_neg Bool.false_ne_true]
  cases cs with
  | nil => rfl
  | cons d cs =>
    have hd : isBlank d = true := hcs d rfl
    cases fields (d :: cs) with
    | nil => rfl
    | cons run runs => simp only [hd, if_true]

/-- Any other character makes the field behind it longer. -/
theorem fields_cons_of_solid {d : Char} (h : isBlank c = false) (hd : isBlank d = false)
    (hcs : fields (d :: cs) = run :: runs) : fields (c :: d :: cs) = (c :: run) :: runs := by
  conv_lhs => unfold fields
  rw [h, if_neg Bool.false_ne_true, hcs]
  simp only [hd, Bool.false_eq_true, if_false]

/-- Blanks before a text do not matter. -/
theorem fields_blanks_append {before : List Char} (h : allBlank before = true) (cs : List Char) :
    fields (before ++ cs) = fields cs := by
  induction before with
  | nil => rfl
  | cons d before ih =>
    unfold allBlank at h
    rw [List.all_cons, Bool.and_eq_true] at h
    rw [List.cons_append, fields_cons_of_blank h.1, ih h.2]

/-- A run of characters without a blank is a field, up to a blank or to the end. -/
theorem fields_run {after : List Char} (hrun : IsField run) (hafter : StartsBlank after) :
    fields (run ++ after) = run :: fields after := by
  obtain ⟨hne, hsolid⟩ := hrun
  induction run with
  | nil => exact absurd rfl hne
  | cons d run ih =>
    have hd := hsolid d List.mem_cons_self
    cases run with
    | nil => exact fields_cons_of_startsBlank hd hafter
    | cons e run =>
      have he := hsolid e (List.mem_cons_of_mem _ List.mem_cons_self)
      exact fields_cons_of_solid hd he
        (ih (List.cons_ne_nil e run) fun c hc => hsolid c (List.mem_cons_of_mem _ hc))

/-- Every text is blank, or blanks and a field and what stands behind it. -/
theorem allBlank_or_exists_field (cs : List Char) : allBlank cs = true ∨
    ∃ before run after, cs = before ++ run ++ after ∧ allBlank before = true ∧ IsField run ∧
      StartsBlank after := by
  induction cs with
  | nil => exact .inl rfl
  | cons c cs ih =>
    cases hc : isBlank c with
    | true =>
      rcases ih with hblank | ⟨before, run, after, rfl, hbefore, hrun, hafter⟩
      · left
        simp only [allBlank, List.all_cons, hc, Bool.true_and]
        exact hblank
      · right
        refine ⟨c :: before, run, after, by simp, ?_, hrun, hafter⟩
        simp only [allBlank, List.all_cons, hc, Bool.true_and]
        exact hbefore
    | false =>
      right
      -- the character begins a field, of its own or together with the one behind it
      rcases ih with hblank | ⟨before, run, after, rfl, hbefore, hrun, hafter⟩
      · exact ⟨[], [c], cs, rfl, rfl, ⟨by simp, by simpa using hc⟩, startsBlank_of_allBlank hblank⟩
      · cases before with
        | nil =>
          refine ⟨[], c :: run, after, rfl, rfl, ⟨by simp, ?_⟩, hafter⟩
          rintro d hd
          rcases List.mem_cons.mp hd with rfl | hd
          · exact hc
          · exact hrun.solid d hd
        | cons d before =>
          refine ⟨[], [c], d :: before ++ run ++ after, rfl, rfl, ⟨by simp, by simpa using hc⟩, ?_⟩
          have hd := List.all_eq_true.mp hbefore d List.mem_cons_self
          exact startsBlank_cons hd _

theorem fields_eq_nil_iff : fields cs = [] ↔ allBlank cs = true := by
  constructor
  · intro h
    rcases allBlank_or_exists_field cs with hblank | ⟨before, run, after, rfl, hbefore, hrun, hafter⟩
    · exact hblank
    · rw [List.append_assoc, fields_blanks_append hbefore, fields_run hrun hafter] at h
      cases h
  · intro h
    have hfields := fields_blanks_append h []
    rwa [List.append_nil] at hfields

/-- The first field of a text, with the blanks before it and what stands behind it. -/
theorem fields_eq_cons_iff : fields cs = run :: runs ↔
    ∃ before after, cs = before ++ run ++ after ∧ allBlank before = true ∧ IsField run ∧
      StartsBlank after ∧ fields after = runs := by
  constructor
  · intro h
    rcases allBlank_or_exists_field cs with hblank | ⟨before, first, after, rfl, hbefore, hfirst, hafter⟩
    · rw [fields_eq_nil_iff.mpr hblank] at h
      cases h
    · rw [List.append_assoc, fields_blanks_append hbefore, fields_run hfirst hafter] at h
      obtain ⟨rfl, rfl⟩ := List.cons.inj h
      exact ⟨before, after, rfl, hbefore, hfirst, hafter, rfl⟩
  · rintro ⟨before, after, rfl, hbefore, hrun, hafter, rfl⟩
    rw [List.append_assoc, fields_blanks_append hbefore, fields_run hrun hafter]

end MemoryReplay.Text
