import BlockMarkup.Text.Blank
import BlockMarkup.Text.Word
import Mathlib.Data.List.TakeWhile

/-!
# BlockMarkup.Proofs.Text.Strip

What cutting white space leaves: `strip` of a text that neither starts nor ends with white space
is the text, and white space around it makes no difference. Word characters are no white space.
-/

namespace BlockMarkup
namespace Text

theorem isBlank_eq_false_of_isWord {c : Char} (h : isWord c = true) : isBlank c = false := by
  cases hb : isBlank c with
  | false => rfl
  | true =>
  exfalso
  simp only [isBlank, Bool.or_eq_true, Bool.and_eq_true, decide_eq_true_eq, beq_iff_eq] at hb
  -- No white space beyond ASCII is in the table of word characters.
  have htable : ∀ n ∈ [0x85, 0xa0, 0x1680, 0x2000, 0x2001, 0x2002, 0x2003, 0x2004, 0x2005, 0x2006,
      0x2007, 0x2008, 0x2009, 0x200a, 0x2028, 0x2029, 0x202f, 0x205f, 0x3000],
      (wordRanges.any fun range => range.1 ≤ n && n ≤ range.2) = false := by
    decide +kernel
  by_cases hlt : c.toNat < 128
  · simp only [isWord, hlt, if_true, Bool.or_eq_true, isLower, isAsciiDigit, Bool.and_eq_true,
      decide_eq_true_eq, beq_iff_eq, Char.le_def, UInt32.le_iff_toNat_le] at h
    have hc : c.val.toNat = c.toNat := rfl
    have ha : ('a' : Char).val.toNat = 97 := rfl
    have hz : ('z' : Char).val.toNat = 122 := rfl
    have hA : ('A' : Char).val.toNat = 65 := rfl
    have hZ : ('Z' : Char).val.toNat = 90 := rfl
    have h0 : ('0' : Char).val.toNat = 48 := rfl
    have h9 : ('9' : Char).val.toNat = 57 := rfl
    rcases h with h | rfl
    · omega
    · exact absurd hb (by decide)
  · simp only [isWord, hlt, if_false] at h
    have hmem : c.toNat ∈ [0x85, 0xa0, 0x1680, 0x2000, 0x2001, 0x2002, 0x2003, 0x2004, 0x2005,
        0x2006, 0x2007, 0x2008, 0x2009, 0x200a, 0x2028, 0x2029, 0x202f, 0x205f, 0x3000] := by
      simp only [List.mem_cons, List.not_mem_nil, or_false]
      omega
    exact absurd (h.symm.trans (htable _ hmem)) (by decide)

theorem isBlank_eq_false_of_startsName {c : Char} (h : startsName c = true) : isBlank c = false := by
  rw [startsName, Bool.and_eq_true] at h
  exact isBlank_eq_false_of_isWord h.1

theorem isWord_of_isLower {c : Char} (h : isLower c = true) : isWord c = true := by
  have hlt : c.toNat < 128 := by
    simp only [isLower, Bool.and_eq_true, decide_eq_true_eq, Char.le_def,
      UInt32.le_iff_toNat_le] at h
    exact Nat.lt_of_le_of_lt h.2 (by decide)
  simp [isWord, hlt, h]

theorem isWord_of_continuesTag {c : Char} (h : continuesTag c = true) : isWord c = true := by
  simp only [continuesTag, Bool.or_eq_true] at h
  rcases h with (h | h) | h
  · exact isWord_of_isLower h
  · have hlt : c.toNat < 128 := by
      simp only [isAsciiDigit, Bool.and_eq_true, decide_eq_true_eq, Char.le_def,
        UInt32.le_iff_toNat_le] at h
      exact Nat.lt_of_le_of_lt h.2 (by decide)
    simp [isWord, hlt, h]
  · rw [beq_iff_eq] at h
    subst h
    decide

theorem isDigit_eq_false_of_isLower {c : Char} (h : isLower c = true) : isDigit c = false := by
  simp only [isLower, Bool.and_eq_true, decide_eq_true_eq, Char.le_def,
    UInt32.le_iff_toNat_le] at h
  have hc : c.val.toNat = c.toNat := rfl
  have ha : ('a' : Char).val.toNat = 97 := rfl
  have hz : ('z' : Char).val.toNat = 122 := rfl
  have h9 : ('9' : Char).val.toNat = 57 := rfl
  have hlt : c.toNat < 128 := by omega
  simp only [isDigit, hlt, if_true, isAsciiDigit, Bool.and_eq_false_iff, decide_eq_false_iff_not,
    Char.le_def, UInt32.le_iff_toNat_le]
  right
  omega

theorem startsName_of_isLower {c : Char} (h : isLower c = true) : startsName c = true := by
  rw [startsName, isWord_of_isLower h, isDigit_eq_false_of_isLower h]
  rfl

/-! ## Cutting -/

theorem blank_newline : ∀ c ∈ ['\n'], isBlank c = true := List.forall_mem_singleton.mpr rfl

theorem stripStart_of_head {s : List Char} (h : ∀ c ∈ s.head?, isBlank c = false) :
    stripStart s = s := by
  cases s with
  | nil => rfl
  | cons c s => simp [stripStart, h c rfl]

theorem stripStart_append {w s : List Char} (hw : ∀ c ∈ w, isBlank c = true) :
    stripStart (w ++ s) = stripStart s := by
  induction w with
  | nil => rfl
  | cons c w ih =>
    simp only [stripStart, List.cons_append] at ih ⊢
    rw [List.dropWhile_cons_of_pos (hw c List.mem_cons_self)]
    exact ih fun d hd => hw d (List.mem_cons_of_mem _ hd)

theorem stripEnd_of_last {s : List Char} (h : ∀ c ∈ s.getLast?, isBlank c = false) :
    stripEnd s = s := by
  have hrev : s.reverse.dropWhile isBlank = s.reverse :=
    stripStart_of_head (by rw [List.head?_reverse]; exact h)
  rw [stripEnd, hrev, List.reverse_reverse]

theorem stripEnd_append {s w : List Char} (hw : ∀ c ∈ w, isBlank c = true) :
    stripEnd (s ++ w) = stripEnd s := by
  have hrev : (w.reverse ++ s.reverse).dropWhile isBlank = s.reverse.dropWhile isBlank :=
    stripStart_append fun c hc => hw c (List.mem_reverse.mp hc)
  rw [stripEnd, List.reverse_append, hrev, stripEnd]

/-- The two ends of a text are no white space. -/
structure Trimmed (s : List Char) : Prop where
  head : ∀ c ∈ s.head?, isBlank c = false
  last : ∀ c ∈ s.getLast?, isBlank c = false

theorem Trimmed.of_forall {s : List Char} (h : ∀ c ∈ s, isBlank c = false) : Trimmed s :=
  ⟨fun c hc => h c (List.mem_of_mem_head? hc), fun c hc => h c (List.mem_of_mem_getLast? hc)⟩

theorem strip_of_trimmed {s : List Char} (h : Trimmed s) : strip s = s := by
  rw [strip, stripStart_of_head h.head, stripEnd_of_last h.last]

theorem strip_append {s w : List Char} (h : Trimmed s) (hs : s ≠ [])
    (hw : ∀ c ∈ w, isBlank c = true) : strip (s ++ w) = s := by
  have hhead : ∀ c ∈ (s ++ w).head?, isBlank c = false := by
    intro c hc
    cases s with
    | nil => exact absurd rfl hs
    | cons d s => exact h.head c hc
  rw [strip, stripStart_of_head hhead, stripEnd_append hw, stripEnd_of_last h.last]

theorem stripStart_eq_nil_iff {s : List Char} : stripStart s = [] ↔ ∀ c ∈ s, isBlank c = true := by
  rw [stripStart, List.dropWhile_eq_nil_iff]

theorem stripEnd_eq_nil_iff {s : List Char} : stripEnd s = [] ↔ ∀ c ∈ s, isBlank c = true := by
  rw [stripEnd, List.reverse_eq_nil_iff, List.dropWhile_eq_nil_iff]
  exact ⟨fun h c hc => h c (List.mem_reverse.mpr hc), fun h c hc => h c (List.mem_reverse.mp hc)⟩

theorem strip_eq_nil_iff {s : List Char} : strip s = [] ↔ ∀ c ∈ s, isBlank c = true := by
  rw [strip, stripEnd_eq_nil_iff]
  constructor
  · intro h
    rw [← stripStart_eq_nil_iff]
    cases hs : stripStart s with
    | nil => rfl
    | cons c t =>
      have hc : isBlank c = false := by
        have := List.head?_dropWhile_not isBlank s
        rw [stripStart] at hs
        rw [hs] at this
        simpa using this
      rw [hs] at h
      exact absurd ((h c List.mem_cons_self).symm.trans hc) nofun
  · exact fun h c hc => h c (List.dropWhile_subset _ hc)

/-! ## What is cut -/

theorem stripStart_split (s : List Char) :
    ∃ w, s = w ++ stripStart s ∧ ∀ c ∈ w, isBlank c = true :=
  ⟨s.takeWhile isBlank, List.takeWhile_append_dropWhile.symm, fun _ hc => List.mem_takeWhile_imp hc⟩

theorem stripEnd_split (s : List Char) :
    ∃ w, s = stripEnd s ++ w ∧ ∀ c ∈ w, isBlank c = true := by
  obtain ⟨w, hw, hblank⟩ := stripStart_split s.reverse
  refine ⟨w.reverse, ?_, fun c hc => hblank c (List.mem_reverse.mp hc)⟩
  have hrev := congrArg List.reverse hw
  rwa [List.reverse_reverse, List.reverse_append] at hrev

theorem strip_split (s : List Char) : ∃ v w, s = v ++ (strip s ++ w) ∧
    (∀ c ∈ v, isBlank c = true) ∧ ∀ c ∈ w, isBlank c = true := by
  obtain ⟨v, hv, hvblank⟩ := stripStart_split s
  obtain ⟨w, hw, hwblank⟩ := stripEnd_split (stripStart s)
  exact ⟨v, w, hv.trans (congrArg (v ++ ·) hw), hvblank, hwblank⟩

theorem head?_stripStart (s : List Char) : ∀ c ∈ (stripStart s).head?, isBlank c = false := by
  intro c hc
  have hnot := List.head?_dropWhile_not isBlank s
  rw [stripStart] at hc
  rw [Option.mem_def.mp hc] at hnot
  exact hnot

theorem getLast?_stripEnd (s : List Char) : ∀ c ∈ (stripEnd s).getLast?, isBlank c = false := by
  intro c hc
  rw [stripEnd, List.getLast?_reverse] at hc
  exact head?_stripStart s.reverse c hc

theorem trimmed_strip (s : List Char) : Trimmed (strip s) := by
  refine ⟨fun c hc => ?_, getLast?_stripEnd _⟩
  obtain ⟨w, hw, -⟩ := stripEnd_split (stripStart s)
  refine head?_stripStart s c ?_
  have hhead : (stripEnd (stripStart s)).head? = some c := hc
  rw [hw, List.head?_append, hhead]
  rfl

theorem stripEnd_cons {c : Char} (hc : isBlank c = false) (s : List Char) :
    ∃ t, stripEnd (c :: s) = c :: t := by
  obtain ⟨w, hw, -⟩ := stripEnd_split (c :: s)
  cases hcut : stripEnd (c :: s) with
  | nil =>
    have hblank := stripEnd_eq_nil_iff.mp hcut c List.mem_cons_self
    rw [hc] at hblank
    cases hblank
  | cons d t =>
    rw [hcut, List.cons_append] at hw
    cases hw
    exact ⟨t, rfl⟩

/-- What stands in front of something else than white space is not cut. -/
theorem stripEnd_append_of_ne_nil {s : List Char} (h : stripEnd s ≠ []) (p : List Char) :
    stripEnd (p ++ s) = p ++ stripEnd s := by
  have hne : s.reverse.dropWhile isBlank ≠ [] := fun hnil => h (List.reverse_eq_nil_iff.mpr hnil)
  rw [stripEnd, List.reverse_append, List.dropWhile_append, if_neg (by simpa using hne),
    List.reverse_append, List.reverse_reverse, stripEnd]

theorem leading_stripEnd_le (s : List Char) : leading (stripEnd s) ≤ leading s := by
  obtain ⟨w, hw, -⟩ := stripEnd_split s
  have htake := congrArg (List.takeWhile isBlank) hw
  rw [List.takeWhile_append] at htake
  rw [leading, leading, htake]
  split
  · rename_i hall
    rw [List.length_append]
    omega
  · exact Nat.le_refl _

theorem isBlank_of_mem_take {n : Nat} {s : List Char} (hn : n ≤ leading s) :
    ∀ c ∈ s.take n, isBlank c = true := by
  intro c hc
  refine List.mem_takeWhile_imp (l := s) (List.IsPrefix.subset ?_ hc)
  exact List.prefix_of_prefix_length_le (List.take_prefix n s) (List.takeWhile_prefix isBlank)
    (Nat.le_trans (List.length_take_le n s) hn)

theorem leading_drop {n : Nat} {s : List Char} (hn : n ≤ leading s) :
    leading (s.drop n) = leading s - n := by
  induction s generalizing n with
  | nil => rw [Nat.le_zero.mp hn, List.drop_zero, Nat.sub_zero]
  | cons c s ih =>
    cases n with
    | zero => rfl
    | succ n =>
      have hc : isBlank c = true := by
        by_contra hc
        rw [leading, List.takeWhile_cons_of_neg hc] at hn
        cases hn
      have hleading : leading (c :: s) = leading s + 1 := by
        rw [leading, List.takeWhile_cons_of_pos hc, List.length_cons, leading]
      rw [hleading] at hn ⊢
      rw [List.drop_succ_cons, ih (Nat.le_of_succ_le_succ hn), Nat.add_sub_add_right]

/-- Cutting white space at the two ends of a text commutes, as long as something is left. -/
theorem stripEnd_drop {n : Nat} {s : List Char} (hs : stripEnd s ≠ []) (hn : n ≤ leading (stripEnd s)) :
    stripEnd (s.drop n) = (stripEnd s).drop n := by
  have hle : n ≤ leading s := Nat.le_trans hn (leading_stripEnd_le s)
  have hlength : (s.take n).length = n := by
    have hleading : leading s ≤ s.length := (List.takeWhile_prefix isBlank).length_le
    rw [List.length_take]
    omega
  have hne : stripEnd (s.drop n) ≠ [] := by
    intro hnil
    refine hs (stripEnd_eq_nil_iff.mpr fun c hc => ?_)
    rw [← List.take_append_drop n s] at hc
    exact (List.mem_append.mp hc).elim (isBlank_of_mem_take hle c) (stripEnd_eq_nil_iff.mp hnil c)
  have hsplit := stripEnd_append_of_ne_nil hne (s.take n)
  rw [List.take_append_drop] at hsplit
  rw [hsplit, List.drop_append_of_le_length (Nat.le_of_eq hlength.symm),
    List.drop_of_length_le (Nat.le_of_eq hlength), List.nil_append]

theorem strip_strip (s : List Char) : strip (strip s) = strip s := strip_of_trimmed (trimmed_strip s)

end Text
end BlockMarkup
