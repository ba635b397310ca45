import BlockMarkup.Proofs.Document.Lasting
import BlockMarkup.Proofs.Layout.Rewritten

/-!
# BlockMarkup.Proofs.Idempotence

Formatting is idempotent, at any two indents, on the texts whose tokens are sealed and whose white space
is plain (`format_format`). Where an opening mark waits for its closing mark, writing a node in another
place may close it; where there is other white space, a string may be the end of a line in one layout
only.
-/

namespace BlockMarkup

open Text Lexeme

/-! ## A line feed behind a text -/

section

variable {text : List Char}

theorem lex_append_feed {d : Node} (hread : read false text = .ok d) (h : IsSealed text) :
    lex .root (text ++ ['\n']) = lex .root text := by
  have hnil : lex .root [] = [] := by decide +kernel
  rw [lex_joined hread h, hnil, Item.movedAll, List.append_nil]

theorem IsSealed.append_feed {d : Node} (h : IsSealed text) (hread : read false text = .ok d) :
    IsSealed (text ++ ['\n']) := by
  intro t ht
  rw [lex_append_feed hread h] at ht
  rw [List.drop_append]
  refine isLoose_append_of_head (h t ht) fun c hc => ?_
  obtain rfl : c = '\n' :=
    List.mem_singleton.mp (List.mem_of_mem_drop (List.mem_of_mem_head? hc))
  decide

theorem Plain.append_feed (h : Plain text) : Plain (text ++ ['\n']) :=
  List.forall_mem_append.mpr ⟨h, fun c hc => by rw [List.mem_singleton.mp hc]; decide⟩

/-- The nodes of an accepted text are placed, with whole heads. -/
theorem placed_whole_of_read {d : Node} (hread : read false text = .ok d) (hplain : Plain text)
    (hsealed : IsSealed text) : ∀ n ∈ d.children, Placed Heads.whole .root n := by
  -- Where a line ends is seen at its line feed, and the last line of the text may lack one.
  have hlex := lex_append_feed hread hsealed
  have hsound := soundItems_of_read hread
  rw [← hlex] at hsound
  have hhold := Heads.whole_hold hsound (hsealed.append_feed hread) hplain.append_feed
    List.getLast?_concat
  rw [hlex] at hhold
  exact (placed_of_read hhold hread).2

end

/-! ## Formatting twice -/

/-- A formatted text is formatted as the text that it was made of, at any indent. -/
theorem format_format {text t : List Char} {w₁ : Int} (w₂ : Int) (hplain : Plain text)
    (hsealed : IsSealed text) (h : format text w₁ = .ok t) :
    ∃ u, format t w₂ = .ok u ∧ format text w₂ = .ok u := by
  obtain ⟨d, hread, hwrites⟩ := writes_of_format h
  have hplaced := placed_whole_of_read hread hplain hsealed
  have hquoted : ¬ d.HasQuotedName := by
    rcases write_of_read w₁ 0 hread with ⟨-, hquoted⟩ | ⟨⟨u, hu⟩, -⟩
    · exact hquoted
    · rw [format, hread] at h
      cases hu.symm.trans h
  obtain ⟨u, hu⟩ : ∃ u, d.write ⟨w₂, 0, .tidy⟩ = .ok u :=
    ((write_of_read w₂ 0 hread).resolve_right fun hfails => hquoted hfails.2).1
  obtain ⟨s, e, hs, he, hnodes⟩ := Placed.rewritten (Heads.whole_readable ⟨w₁, 0, .tidy⟩)
    (g := ⟨w₂, 0, .tidy⟩) rfl rfl hplaced fun n hn hq => hquoted (.of_mem hn hq)
  obtain rfl : t = s := hwrites.text.symm.trans hs.text
  have htwice : format t w₂ = format text w₂ := by
    rw [format_of_read he, hnodes, format_of_read hread]
  have honce : format text w₂ = .ok u := by
    rw [format, hread]
    exact hu
  exact ⟨u, htwice.trans honce, honce⟩

/-- Formatting twice is formatting once. -/
theorem format_idem {text t : List Char} {w : Int} (hplain : Plain text) (hsealed : IsSealed text)
    (h : format text w = .ok t) : format t w = .ok t := by
  obtain ⟨u, htwice, honce⟩ := format_format w hplain hsealed h
  rw [htwice, ← honce, h]

/-- The nodes of this text are arranged, and its second line is put behind another margin. -/
example : Plain "p \x7b \"t\" b: f(\n  1), key: \"k\" \x7d".toList ∧
    IsSealed "p \x7b \"t\" b: f(\n  1), key: \"k\" \x7d".toList := by decide +kernel

end BlockMarkup
