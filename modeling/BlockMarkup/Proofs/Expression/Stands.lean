import BlockMarkup.Proofs.Expression.Cuts

/-!
# BlockMarkup.Proofs.Expression.Stands

All that the lexer can find in an expression. `Stands t l` says that the lexeme `l` is found in front
of the text `t`: it fits there, or it is an opening mark whose closing mark is missing in all of `t`
(`stands_of_takes`, `Stands.takes`). What stands in front of a text stands in front of any shorter
part of it (`Stands.truncate`).
-/

namespace BlockMarkup

open Text

namespace Rule

/-- The rule for the text that no other rule takes. -/
def rest : Rule := ⟨.run, .emit .text, .stay⟩

theorem Takes.before_rest {u t : List Char} (h : rest.Takes u t) :
    ∀ q ∈ Mode.group.rules.take 11, q.pattern.length? (u ++ t) = none := by
  have hrules : Mode.group.rules = Mode.group.rules.take 11 ++ [rest] := rfl
  rw [Takes, hrules] at h
  exact first?_append_none h (by decide)

/-- The rules that can start with a character that opens comments or raw strings. -/
theorem mem_of_opensWith : ∀ q ∈ Mode.group.rules,
    (q.pattern.opensWith '/' = true → q.pattern = .lineComment ∨ q.pattern = .blockComment ∨
      q = rest) ∧
    (q.pattern.opensWith 'r' = true → q.pattern = .hashString ∨ q.pattern = .rawString ∨
      q = rest) := by decide

theorem Takes.opensWith {r : Rule} {c : Char} {u t : List Char} (h : r.Takes (c :: u) t) :
    r.pattern.opensWith c = true := by
  obtain ⟨d, s, hs, hd⟩ := Pattern.opensWith_of_length? h.matched
  cases hs
  exact hd

end Rule

namespace Lexeme

/-- The lexeme is found in front of the text. -/
inductive Stands : List Char → Lexeme → Prop where
  | fits {t : List Char} {l : Lexeme} : l.Fits t → Stands t l
  | quote {t : List Char} : stringTail t = none → Stands t ⟨['"'], .stray⟩
  | comment {v : List Char} : throughPair '*' '/' v = none → Stands ('*' :: v) ⟨['/'], .text⟩
  | raw {v : List Char} : through '"' v = none → Stands ('"' :: v) ⟨['r'], .text⟩
  | hash {v : List Char} : throughPair '"' '#' v = none → Stands ('"' :: v) ⟨['r', '#'], .text⟩

theorem stands_comment {r : Rule} {v : List Char} {cls : TokenClass}
    (h : r.Takes ['/'] ('*' :: v)) (hemit : r.effect = .emit cls) :
    Stands ('*' :: v) ⟨['/'], cls⟩ := by
  have hmatched : r.pattern.length? ('/' :: '*' :: v) = some 1 := h.matched
  rcases (Rule.mem_of_opensWith r h.mem).1 h.opensWith with hp | hp | rfl
  · rw [hp] at hmatched
    cases hmatched
  · rw [hp] at hmatched
    obtain ⟨k, -, hk⟩ := Option.map_eq_some_iff.mp hmatched
    cases hk
  · have hnone := h.before_rest ⟨.blockComment, .emit .comment, .stay⟩ (by decide)
    cases hemit
    exact .comment (Option.map_eq_none_iff.mp hnone)

theorem stands_raw {r : Rule} {v : List Char} {cls : TokenClass}
    (h : r.Takes ['r'] ('"' :: v)) (hemit : r.effect = .emit cls) :
    Stands ('"' :: v) ⟨['r'], cls⟩ := by
  have hmatched : r.pattern.length? ('r' :: '"' :: v) = some 1 := h.matched
  rcases (Rule.mem_of_opensWith r h.mem).2 h.opensWith with hp | hp | rfl
  · rw [hp] at hmatched
    cases hmatched
  · rw [hp] at hmatched
    obtain ⟨k, -, hk⟩ := Option.map_eq_some_iff.mp hmatched
    cases hk
  · have hnone := h.before_rest ⟨.rawString, .emit .rawString, .stay⟩ (by decide)
    cases hemit
    exact .raw (Option.map_eq_none_iff.mp hnone)

theorem stands_hash {r : Rule} {v : List Char} {cls : TokenClass}
    (h : r.Takes ['r', '#'] ('"' :: v)) (hemit : r.effect = .emit cls) :
    Stands ('"' :: v) ⟨['r', '#'], cls⟩ := by
  have hmatched : r.pattern.length? ('r' :: '#' :: '"' :: v) = some 2 := h.matched
  rcases (Rule.mem_of_opensWith r h.mem).2 h.opensWith with hp | hp | rfl
  · rw [hp] at hmatched
    obtain ⟨k, -, hk⟩ := Option.map_eq_some_iff.mp hmatched
    cases hk
  · rw [hp] at hmatched
    cases hmatched
  · have hnone := h.before_rest ⟨.hashString, .emit .rawString, .stay⟩ (by decide)
    cases hemit
    exact .hash (Option.map_eq_none_iff.mp hnone)

/-- A quote mark by itself has no closing quote mark behind it. -/
theorem stands_quote {r : Rule} {u t : List Char} (h : r.Takes u t)
    (hemit : r.effect = .emit .stray) : Stands t ⟨u, .stray⟩ := by
  have hrule : ∀ q ∈ Mode.group.rules, q.effect = .emit .stray →
      q = ⟨.quote, .emit .stray, .stay⟩ := by decide
  obtain rfl := hrule r h.mem hemit
  obtain ⟨c, rfl, hc⟩ := eq_of_one h.matched
  obtain rfl : c = '"' := by simpa using hc
  have hrules : Mode.group.rules = Mode.group.rules.take 5 ++ Mode.group.rules.drop 5 := rfl
  rw [Rule.Takes, hrules] at h
  have hnone := Rule.first?_append_none h (by decide) ⟨.string, .emit .string, .stay⟩ (by decide)
  exact .quote (Option.map_eq_none_iff.mp hnone)

/-- Whatever the lexer finds in a group stands there. -/
theorem stands_of_takes {r : Rule} {u t : List Char} {cls : TokenClass} (hne : u ≠ [])
    (h : r.Takes u t) (hemit : r.effect = .emit cls) : Stands t ⟨u, cls⟩ := by
  by_cases hcls : cls = .stray
  · subst hcls
    exact stands_quote h hemit
  · cases hloose : isLoose u t with
    | false => exact .fits (fits_of_takes hne h hemit hcls hloose)
    | true =>
      simp only [isLoose, Bool.or_eq_true, Bool.and_eq_true, decide_eq_true_eq] at hloose
      cases t with
      | nil => simp at hloose
      | cons c v =>
        simp only [List.head?_cons, Option.some.injEq] at hloose
        rcases hloose with ⟨rfl, rfl⟩ | ⟨rfl | rfl, rfl⟩
        · exact stands_comment h hemit
        · exact stands_raw h hemit
        · exact stands_hash h hemit

theorem Stands.text_ne_nil {t : List Char} {l : Lexeme} (h : Stands t l) : l.text ≠ [] := by
  cases h with
  | fits h => exact h.text_ne_nil
  | quote _ | comment _ | raw _ | hash _ => exact nofun

/-- What stands in front of a text is what the lexer finds there. -/
theorem Stands.takes {t : List Char} {l : Lexeme} (h : Stands t l) :
    ∃ r : Rule, r.Takes l.text t ∧ r.effect = .emit l.cls := by
  cases h with
  | fits h =>
    obtain ⟨r, -, htakes, hemit, -⟩ := h.takes
    exact ⟨r, htakes, hemit⟩
  | quote ht =>
    refine ⟨⟨.quote, .emit .stray, .stay⟩, Rule.takes_of_filter ?_, rfl⟩
    have hstring : Pattern.string.length? ('"' :: ([] ++ t)) = none := by
      simp [Pattern.length?, Pattern.stringLength?, ht]
    exact (Rule.first?_cons_none hstring).trans (Rule.first?_cons_some rfl)
  | @comment v hv =>
    refine ⟨Rule.rest, Rule.takes_of_filter ?_, rfl⟩
    have hline : Pattern.lineComment.length? ('/' :: '*' :: v) = none := rfl
    have hblock : Pattern.blockComment.length? ('/' :: '*' :: v) = none := by
      simp [Pattern.length?, hv]
    exact (Rule.first?_cons_none hline).trans
      ((Rule.first?_cons_none hblock).trans (Rule.first?_cons_some rfl))
  | @raw v hv =>
    refine ⟨Rule.rest, Rule.takes_of_filter ?_, rfl⟩
    have hhash : Pattern.hashString.length? ('r' :: '"' :: v) = none := rfl
    have hraw : Pattern.rawString.length? ('r' :: '"' :: v) = none := by
      simp [Pattern.length?, hv]
    exact (Rule.first?_cons_none hhash).trans
      ((Rule.first?_cons_none hraw).trans (Rule.first?_cons_some rfl))
  | @hash v hv =>
    refine ⟨Rule.rest, Rule.takes_of_filter ?_, rfl⟩
    have hhash : Pattern.hashString.length? ('r' :: '#' :: '"' :: v) = none := by
      simp [Pattern.length?, hv]
    have hraw : Pattern.rawString.length? ('r' :: '#' :: '"' :: v) = none := rfl
    exact (Rule.first?_cons_none hhash).trans
      ((Rule.first?_cons_none hraw).trans (Rule.first?_cons_some rfl))

/-! ## Shorter texts -/

theorem through_none_of_append {c : Char} {u t : List Char} (h : through c (u ++ t) = none) :
    through c u = none := by
  cases hu : through c u with
  | none => rfl
  | some n =>
    rw [(through_append_iff (through_le c u n hu).1).mpr hu] at h
    cases h

theorem throughPair_none_of_append {a b : Char} {u t : List Char}
    (h : throughPair a b (u ++ t) = none) : throughPair a b u = none := by
  cases hu : throughPair a b u with
  | none => rfl
  | some n =>
    rw [(throughPair_append_iff (throughPair_le a b u n hu).1).mpr hu] at h
    cases h

theorem stringTail_none_of_append {u t : List Char} (h : stringTail (u ++ t) = none) :
    stringTail u = none := by
  cases hu : stringTail u with
  | none => rfl
  | some n =>
    rw [(stringTail_append_iff u (stringTail_le u n hu).1).mpr hu] at h
    cases h

theorem charTail_none_of_append {u t : List Char} (h : Pattern.charTail (u ++ t) = none) :
    Pattern.charTail u = none := by
  cases hu : Pattern.charTail u with
  | none => rfl
  | some n =>
    rw [(Pattern.charTail_append_iff (Pattern.charTail_le hu).1).mpr hu] at h
    cases h

theorem forall_head?_of_append {P : Char → Prop} {u t : List Char}
    (h : ∀ c ∈ (u ++ t).head?, P c) : ∀ c ∈ u.head?, P c := by
  cases u with
  | nil => exact nofun
  | cons c u => exact h

theorem isLoose_of_append {m u t : List Char} (h : isLoose m (u ++ t) = false) :
    isLoose m u = false := by
  cases u with
  | nil => exact isLoose_nil m
  | cons c u => exact h

theorem Fits.truncate {l : Lexeme} {u t : List Char} (h : l.Fits (u ++ t)) : l.Fits u := by
  cases h with
  | closed hr hclosed hemit hu => exact .closed hr hclosed hemit hu
  | comment hv ht => exact .comment hv (forall_head?_of_append ht)
  | blank hne hu ht => exact .blank hne hu (forall_head?_of_append ht)
  | run hne hu ht hloose =>
    exact .run hne hu (forall_head?_of_append ht) (isLoose_of_append hloose)
  | slash hslash hloose =>
    refine .slash (fun hu => hslash ?_) (isLoose_of_append hloose)
    rw [List.head?_append, hu]
    rfl
  | tick ht => exact .tick (charTail_none_of_append ht)

/-- A mark whose other mark is missing in a text misses it in any shorter part as well. -/
theorem Stands.truncate {l : Lexeme} {u t : List Char} (h : Stands (u ++ t) l) : Stands u l := by
  generalize hs : u ++ t = s at h
  cases h with
  | fits h => exact .fits (Fits.truncate (hs ▸ h))
  | quote ht => exact .quote (stringTail_none_of_append (hs ▸ ht))
  | comment hv =>
    cases u with
    | nil => exact .fits (.slash nofun (isLoose_nil _))
    | cons c u =>
      cases hs
      exact .comment (throughPair_none_of_append hv)
  | raw hv =>
    cases u with
    | nil => exact .fits (.run nofun (List.forall_mem_singleton.mpr rfl) nofun (isLoose_nil _))
    | cons c u =>
      cases hs
      exact .raw (through_none_of_append hv)
  | hash hv =>
    cases u with
    | nil =>
      have hu : ∀ c ∈ ['r', '#'], Pattern.endsRun c = false :=
        List.forall_mem_cons.mpr ⟨rfl, List.forall_mem_singleton.mpr rfl⟩
      exact .fits (.run nofun hu nofun (isLoose_nil _))
    | cons c u =>
      cases hs
      exact .hash (throughPair_none_of_append hv)

/-- Only white space and line comments end in white space. -/
theorem Stands.last_not_blank {l : Lexeme} {t : List Char} (h : Stands t l)
    (hl : l.isTrailing = false) : ∀ c ∈ l.text.getLast?, isBlank c = false := by
  cases h with
  | fits h =>
    cases h with
    | closed _ hclosed _ hu => exact Pattern.last_of_length? hclosed hu
    | comment _ _ | blank _ _ _ => cases hl
    | run _ hu _ _ =>
      intro c hc
      have hends := hu c (List.mem_of_mem_getLast? hc)
      rw [Pattern.endsRun, Bool.or_eq_false_iff] at hends
      exact hends.1
    | slash _ _ | tick _ =>
      rintro c ⟨⟩
      decide
  | quote _ | comment _ | raw _ | hash _ =>
    rintro c ⟨⟩
    decide

end Lexeme
end BlockMarkup
