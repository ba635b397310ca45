import BlockMarkup.Proofs.Document.Located

/-!
# BlockMarkup.Proofs.Document.Onward

Lexing a text with more lines behind it. A match stays as it is, unless it is white space that goes on
there or an opening mark that is closed there (`Mode.first?_onward_body`,
`Mode.first?_onward_value`), and so does a context that is left
in the text (`Scans.onward`). Then the tokens of a whole text in order stay as they are, whatever lines
come behind it (`Scans.reads_onward`).
-/

namespace BlockMarkup

open Text

/-! ## Texts that leave nothing to match -/

/-- Nothing stands in the text but white space, and a line comment without an end behind it. -/
def Spent (s : List Char) : Prop :=
  ∃ w v, s = w ++ v ∧ (∀ c ∈ w, isBlank c = true) ∧
    (v = [] ∨ ∃ x, v = '/' :: '/' :: x ∧ '\n' ∉ x)

theorem spent_of_blank {s : List Char} (h : ∀ c ∈ s, isBlank c = true) : Spent s :=
  ⟨s, [], (List.append_nil s).symm, h, .inl rfl⟩

theorem not_spent_of_head {c : Char} {s : List Char} (hb : isBlank c = false) (hc : c ≠ '/') :
    ¬ Spent (c :: s) := by
  rintro ⟨w, v, hs, hw, hv⟩
  cases w with
  | nil =>
    rw [List.nil_append] at hs
    rcases hv with rfl | ⟨x, rfl, -⟩
    · cases hs
    · exact hc (List.cons.inj hs).1
  | cons d w =>
    rw [(List.cons.inj hs).1, hw d List.mem_cons_self] at hb
    cases hb

/-- What white space satisfies of a sort goes no further than the white space. -/
theorem length_takeWhile_append_le {p : Char → Bool} {w v : List Char}
    (hv : ∀ c ∈ v.head?, p c = false) : ((w ++ v).takeWhile p).length ≤ w.length := by
  induction w with
  | nil =>
    rw [takeWhile_append_stop (u := []) nofun hv]
  | cons c w ih =>
    rw [List.cons_append]
    cases hc : p c with
    | true =>
      rw [List.takeWhile_cons_of_pos hc]
      exact Nat.succ_le_succ ih
    | false =>
      rw [List.takeWhile_cons_of_neg (by rw [hc]; exact Bool.false_ne_true)]
      exact Nat.zero_le _

/-- A match at white space goes no further than the white space. -/
theorem Pattern.le_of_blank {p : Pattern} {c : Char} {w v : List Char} {n : Nat}
    (hc : isBlank c = true) (hv : ∀ d ∈ v.head?, isBlank d = false)
    (h : p.length? (c :: w ++ v) = some n) : n ≤ (c :: w).length := by
  cases hp : p.looksAhead with
  | true =>
    have hn : n = 0 := by
      cases p with
      | closerAhead | spreadEnd =>
        simp only [length?] at h
        exact (ahead_eq_some h).1
      | _ => cases hp
    rw [hn]
    exact Nat.zero_le _
  | false =>
    by_cases hblanks : p = .blanks
    · subst hblanks
      rw [(many_eq_some.mp h).1]
      exact length_takeWhile_append_le hv
    · by_cases hspaces : p = .spaces
      · subst hspaces
        rw [(many_eq_some.mp h).1]
        exact length_takeWhile_append_le fun d hd => isSpace_of_not_isBlank (hv d hd)
      · obtain ⟨d, t, ht, hd⟩ := head_not_blank hblanks hspaces hp h
        cases ht
        rw [hc] at hd
        cases hd

/-- Every mode tries line comments first where there is a slash. -/
theorem Mode.rules_of_slash (m : Mode) : ∃ r rs,
    m.rules.filter (fun q => q.pattern.opensWith '/') = r :: rs ∧ r.pattern = .lineComment := by
  cases m <;> exact ⟨_, _, rfl, rfl⟩

/-- Where there is nothing to match, there is nothing behind a match either. -/
theorem Spent.drop {m : Mode} {s : List Char} {n : Nat} {r : Rule} (h : Spent s)
    (hfirst : Rule.first? m.rules s = some (n, r)) : Spent (s.drop n) := by
  obtain ⟨w, v, rfl, hw, hv⟩ := h
  have hle : n ≤ w.length → Spent ((w ++ v).drop n) := by
    intro hn
    rw [List.drop_append_of_le_length hn]
    exact ⟨w.drop n, v, rfl, fun c hc => hw c (List.mem_of_mem_drop hc), hv⟩
  cases w with
  | nil =>
    rcases hv with rfl | ⟨x, rfl, hx⟩
    · rw [List.append_nil, List.drop_nil]
      exact spent_of_blank (List.forall_mem_nil _)
    · obtain ⟨q, qs, hrules, hq⟩ := m.rules_of_slash
      have hcomment : q.pattern.length? ('/' :: '/' :: x) = some (x.length + 2) := by
        have htake : x.takeWhile (· ≠ '\n') = x :=
          List.takeWhile_eq_self_iff.mpr fun c hc => by simpa using fun h : c = '\n' => hx (h ▸ hc)
        simp only [hq, Pattern.length?, htake]
      rw [List.nil_append, Rule.first?_eq_filter, hrules, Rule.first?_cons_some hcomment] at hfirst
      cases hfirst
      exact spent_of_blank (by simp)
  | cons c w =>
    refine hle (Pattern.le_of_blank (hw c List.mem_cons_self) ?_ (Rule.first?_eq_some hfirst).2)
    rcases hv with rfl | ⟨x, rfl, -⟩
    · rintro d ⟨⟩
    · rintro d ⟨⟩
      decide

/-! ## Matches in bodies -/

section

variable {m : Mode} {u t : List Char} {r : Rule}

/-- Two texts that one rule takes `u` from are alike to any rule. -/
theorem Rule.first?_exchange {q : Rule} {t' : List Char}
    (h : Rule.first? m.rules (u ++ t) = some (u.length, r))
    (ht : Rule.first? m.rules (u ++ t) = some (u.length, q))
    (ht' : Rule.first? m.rules (u ++ t') = some (u.length, q)) :
    Rule.first? m.rules (u ++ t') = some (u.length, r) := by
  rw [ht', ← ht, h]

/-- A name is not followed by a second colon. -/
theorem Rule.not_colon_of_name (h : Rule.first? m.rules (u ++ t) = some (u.length, r))
    (hmove : r.move = .push .attribute) : ∀ c ∈ t.head?, c ≠ ':' := by
  obtain ⟨hr, hmatch⟩ := Rule.first?_eq_some h
  have hrules : ∀ m : Mode, ∀ r ∈ m.rules, r.move = .push .attribute →
      r.pattern = .name ∨ r.pattern = .quotedName := by
    intro m
    cases m <;> decide
  rcases hrules m r hr hmove with hp | hp <;> rw [hp] at hmatch
  · obtain ⟨p, w, v, hs, -, -, hv, hlen⟩ := Pattern.length?_name_iff.mp hmatch
    have hsplit : u ++ t = (p ++ (w ++ [':'])) ++ v := by rw [hs]; simp
    obtain ⟨-, rfl⟩ := List.append_inj hsplit (by rw [hlen]; simp; omega)
    exact hv
  · obtain ⟨p, w, v, hs, -, -, hv, hlen⟩ := Pattern.length?_quotedName_iff.mp hmatch
    have hsplit : u ++ t = ('"' :: (p ++ '"' :: (w ++ [':']))) ++ v := by rw [hs]; simp
    obtain ⟨-, rfl⟩ := List.append_inj hsplit (by rw [hlen]; simp; omega)
    exact hv

theorem head?_append_line {P : Char → Prop} {t : List Char} (ht : ∀ c ∈ t.head?, P c)
    (hfeed : P '\n') (b : List Char) : ∀ c ∈ (t ++ '\n' :: b).head?, P c := by
  cases t with
  | nil =>
    rintro c ⟨⟩
    exact hfeed
  | cons d t => exact ht

theorem Mode.first?_onward_push {inner : Mode} (hm : m.isBody = true) (hne : u ≠ [])
    (h : Rule.first? m.rules (u ++ t) = some (u.length, r)) (hmove : r.move = .push inner)
    (b : List Char) : Rule.first? m.rules (u ++ (t ++ '\n' :: b)) = some (u.length, r) := by
  obtain ⟨cls, hemit⟩ : ∃ cls, r.effect = .emit cls := by
    cases he : r.effect with
    | skip => exact absurd he (m.emits_of_push inner r (Rule.first?_eq_some h).1 hmove)
    | emit cls => exact ⟨cls, rfl⟩
  have hopens : Opens m ⟨0, u, cls⟩ inner := opens_of_makes hmove ⟨hemit, ⟨t, h⟩, hne⟩
  cases hopens with
  | decorator _ _ ho =>
    exact Rule.first?_exchange h (first?_decorator hm ho t) (first?_decorator hm ho _)
  | brace _ _ ho =>
    obtain rfl : u = ['\x7b'] := ho
    exact Rule.first?_exchange h (first?_opener hm t) (first?_opener hm _)
  | @tag _ _ p _ _ hspells hp =>
    obtain ⟨w, rfl, hw⟩ : ∃ w, u = p ++ (w ++ ['\x7b']) ∧ _ := hspells
    have hfirst : ∀ t, Rule.first? m.rules (p ++ (w ++ ['\x7b']) ++ t) =
        some ((p ++ (w ++ ['\x7b'])).length, ⟨.tag, .emit .tag, .push .element⟩) := fun t => by
      simpa [Nat.add_assoc] using first?_tag (t := t) hm hp hw
    exact Rule.first?_exchange h (hfirst t) (hfirst _)
  | @path _ _ p _ _ hspells hp htag =>
    obtain ⟨w, rfl, hw⟩ : ∃ w, u = p ++ (w ++ ['\x7b']) ∧ _ := hspells
    have hfirst : ∀ t, Rule.first? m.rules (p ++ (w ++ ['\x7b']) ++ t) =
        some ((p ++ (w ++ ['\x7b'])).length, ⟨.path, .emit .path, .push .component⟩) := fun t => by
      simpa [Nat.add_assoc] using first?_path (t := t) hm hp htag hw
    exact Rule.first?_exchange h (hfirst t) (hfirst _)
  | @name _ _ p hm' _ hspells hp =>
    obtain ⟨w, rfl, hw⟩ : ∃ w, u = p ++ (w ++ [':']) ∧ _ := hspells
    have hfirst : ∀ t : List Char, (∀ c ∈ t.head?, c ≠ ':') →
        Rule.first? m.rules (p ++ (w ++ [':']) ++ t) =
          some ((p ++ (w ++ [':'])).length, ⟨.name, .emit .name, .push .attribute⟩) := fun t ht => by
      simpa [Nat.add_assoc] using first?_name (t := t) hm' hp hw ht
    have hcolon := Rule.not_colon_of_name h hmove
    exact Rule.first?_exchange h (hfirst t hcolon)
      (hfirst _ (head?_append_line (P := (· ≠ ':')) hcolon (by decide) b))
  | @quotedName _ q _ hspells hq =>
    obtain ⟨w, rfl, hw⟩ : ∃ w, u = quote q ++ (w ++ [':']) ∧ _ := hspells
    have hfirst : ∀ t : List Char, (∀ c ∈ t.head?, c ≠ ':') →
        Rule.first? Mode.element.rules (quote q ++ (w ++ [':']) ++ t) =
          some ((quote q ++ (w ++ [':'])).length, ⟨.quotedName, .emit .name, .push .attribute⟩) :=
      fun t ht => by
        have hlen : (quote q ++ (w ++ [':'])).length = q.length + w.length + 3 := by
          simp [quote]
          omega
        rw [hlen]
        simpa using first?_quotedName (t := t) hq hw ht
    have hcolon := Rule.not_colon_of_name h hmove
    exact Rule.first?_exchange h (hfirst t hcolon)
      (hfirst _ (head?_append_line (P := (· ≠ ':')) hcolon (by decide) b))
  | dots _ ho =>
    obtain rfl : u = ['.', '.'] := ho
    exact Rule.first?_exchange h (first?_dots t) (first?_dots _)
  | group hb _ _ =>
    rw [hm] at hb
    cases hb

/-- What the rules of bodies that open nothing are. -/
theorem Mode.rule_of_body (m : Mode) : m.isBody = true → ∀ r ∈ m.rules,
    (∃ inner, r.move = .push inner) ∨ r = ⟨.blanks, .skip, .stay⟩ ∨
      r = ⟨.lineComment, .skip, .stay⟩ ∨ r = ⟨.blockComment, .skip, .stay⟩ ∨
      r = ⟨.separator, .emit .separator, .stay⟩ ∨ r = ⟨.string, .emit .string, .stay⟩ ∨
      ((m = .element ∨ m = .component) ∧ r = ⟨.closer, .emit .bracket, .pop⟩) := by
  intro hm
  cases m <;> cases hm <;> simp [rules, Rule.body, Rule.trivia]

theorem Mode.first?_onward_blockComment (hm : m.isBody = true)
    (h : Rule.first? m.rules (u ++ t) = some (u.length, ⟨.blockComment, .skip, .stay⟩))
    (b : List Char) : Rule.first? m.rules (u ++ (t ++ '\n' :: b)) =
      some (u.length, ⟨.blockComment, .skip, .stay⟩) := by
  have hu : Pattern.blockComment.length? u = some u.length :=
    (Pattern.length?_append_iff rfl (Nat.le_refl _)).mp (Rule.first?_eq_some h).2
  obtain ⟨v, rfl⟩ := Pattern.lead_isPrefix hu
  have hv : throughPair '*' '/' v = some v.length := by
    obtain ⟨k, hk, hlen⟩ := Option.map_eq_some_iff.mp hu
    have hlen' : k + 2 = v.length + 2 := hlen
    rw [← Nat.add_right_cancel hlen']
    exact hk
  exact first?_blockComment hm ((throughPair_append_iff (Nat.le_refl _)).mpr hv)

/-- A string literal does not become a name by what comes behind, unless only white space came. -/
theorem quotedName_onward {q : List Char} (hq : isQuotable q = true) (ht : ¬ Spent t)
    (h : Pattern.quotedName.length? (quote q ++ t) = none) (b : List Char) :
    Pattern.quotedName.length? (quote q ++ (t ++ '\n' :: b)) = none := by
  cases hn : Pattern.quotedName.length? (quote q ++ (t ++ '\n' :: b)) with
  | none => rfl
  | some n =>
    exfalso
    obtain ⟨p, w, v, hs, hp, hw, hv, -⟩ := Pattern.length?_quotedName_iff.mp hn
    obtain ⟨rfl, hsplit⟩ := Pattern.quote_append_inj (t := w ++ ':' :: v) hq hp
      (hs.trans (by simp [quote]))
    rcases List.append_eq_append_iff.mp hsplit with ⟨w', rfl, -⟩ | ⟨v', rfl, he⟩
    · exact ht (spent_of_blank fun c hc => hw c (List.mem_append_left _ hc))
    · cases v' with
      | nil => cases he
      | cons c v' =>
        obtain ⟨rfl, rfl⟩ := List.cons.inj he
        have hname : Pattern.quotedName.length? (quote q ++ (w ++ ':' :: v')) =
            some (q.length + w.length + 3) := by
          refine Pattern.length?_quotedName_iff.mpr ⟨q, w, v', by simp [quote], hp, hw, ?_, rfl⟩
          cases v' with
          | nil => rintro d ⟨⟩
          | cons d v' => exact hv
        rw [hname] at h
        cases h

theorem Mode.first?_onward_body (hm : m.isBody = true) (hne : u ≠ [])
    (h : Rule.first? m.rules (u ++ t) = some (u.length, r)) (hblank : r.pattern = .blanks → t ≠ [])
    (hstring : m = .element → r.pattern = .string → ¬ Spent t) (b : List Char) :
    Rule.first? m.rules (u ++ (t ++ '\n' :: b)) = some (u.length, r) := by
  obtain ⟨hr, hmatch⟩ := Rule.first?_eq_some h
  rcases m.rule_of_body hm r hr with ⟨inner, hmove⟩ | rfl | rfl | rfl | rfl | rfl | ⟨hm', rfl⟩
  case inl => exact first?_onward_push hm hne h hmove b
  case inr.inl =>
    obtain ⟨hu, ht⟩ := Lexeme.takeWhile_eq_of_length (Pattern.many_eq_some.mp hmatch).1
    refine first?_blanks hm hu hne ?_
    rwa [Lexeme.head?_append_of_ne_nil (hblank rfl)]
  case inr.inr.inl =>
    obtain ⟨v, rfl, hv, ht⟩ := Lexeme.split_of_lineComment hmatch
    exact first?_lineComment hm hv (head?_append_line (P := (· = '\n')) ht rfl b)
  case inr.inr.inr.inl =>
    exact first?_onward_blockComment hm h b
  case inr.inr.inr.inr.inl =>
    obtain ⟨c, rfl, hc⟩ := eq_of_one hmatch
    obtain rfl : c = ',' := by simpa using hc
    exact first?_separator hm _
  case inr.inr.inr.inr.inr.inl =>
    obtain ⟨q, rfl, hq⟩ := eq_quote_of_string hmatch
    have hlen : (quote q).length = q.length + 2 := by simp [quote]
    rw [hlen]
    refine first?_string hm hq fun he => ?_
    subst he
    have hrules : Mode.element.rules = Mode.element.rules.take 3 ++ Mode.element.rules.drop 3 := rfl
    rw [hrules] at h
    exact quotedName_onward hq (hstring rfl rfl) (Rule.first?_append_none h (by decide)
      ⟨.quotedName, .emit .name, .push .attribute⟩ (by decide)) b
  case inr.inr.inr.inr.inr.inr =>
    obtain ⟨c, rfl, hc⟩ := eq_of_one hmatch
    obtain rfl : c = '\x7d' := by simpa using hc
    exact first?_closer hm' _

/-! ## Matches in expressions -/

/-- What fits in front of a text fits as well where more lines come behind it. -/
theorem Lexeme.Fits.onward {l : Lexeme} (h : l.Fits t) (hl : l.cls = .blank → t ≠ [])
    (b : List Char) : l.Fits (t ++ '\n' :: b) := by
  by_cases ht : t = []
  · subst ht
    cases h with
    | closed hr hclosed hemit hu => exact .closed hr hclosed hemit hu
    | comment hv _ =>
      refine .comment hv ?_
      rintro c ⟨⟩
      rfl
    | blank _ _ _ => exact absurd rfl (hl rfl)
    | run hne hu _ _ =>
      refine .run hne hu ?_ (by simp [isLoose])
      rintro c ⟨⟩
      decide
    | slash _ _ => exact .slash (by simp) rfl
    | tick _ => exact .tick (EndsLine.feed b).charTail_eq_none
  · exact h.append ht (.feed b)

theorem Rule.first?_append (rs qs : List Rule) (s : List Char) :
    first? (rs ++ qs) s = (first? rs s).or (first? qs s) := List.findSome?_append

theorem Rule.first?_congr {rules : List Rule} {s s' : List Char}
    (h : ∀ q ∈ rules, q.pattern.length? s = q.pattern.length? s') :
    first? rules s = first? rules s' := by
  induction rules with
  | nil => rfl
  | cons q qs ih =>
    obtain ⟨hq, hqs⟩ := List.forall_mem_cons.mp h
    rw [first?, first?, List.findSome?_cons, List.findSome?_cons, hq, ← first?, ← first?, ih hqs]

/-- The rules of expressions are those of groups, but for two. -/
theorem Rule.first?_group_eq {c : Char} {s : List Char} (hc : c ∉ [',', ')', ']', '\x7d']) :
    first? Mode.group.rules (c :: s) = first? expression (c :: s) := by
  have hrules : Mode.group.rules = [⟨.groupCloser, .emit .bracket, .pop⟩,
    ⟨.separator, .emit .text, .stay⟩] ++ expression := rfl
  simp only [List.mem_cons, List.not_mem_nil, or_false, not_or] at hc
  rw [hrules, first?_append_of_none]
  intro q hq
  apply Pattern.length?_eq_none
  simp only [List.mem_cons, List.not_mem_nil, or_false] at hq
  rcases hq with rfl | rfl <;> simp [Pattern.opensWith, hc]

theorem Rule.first?_onward_expression {cls : TokenClass} (hne : u ≠ [])
    (h : first? expression (u ++ t) = some (u.length, r)) (hemit : r.effect = .emit cls)
    (hcls : cls ≠ .stray) (hloose : isLoose u t = false) (hblank : cls = .blank → t ≠ [])
    (b : List Char) : ∃ q, first? expression (u ++ (t ++ '\n' :: b)) = some (u.length, q) ∧
      q.effect = .emit cls ∧ q.move = r.move := by
  obtain ⟨hr, hmatch⟩ := first?_eq_some h
  obtain ⟨c, v, hc, hopens⟩ := Pattern.opensWith_of_length? hmatch
  have hmark : c ∉ [',', ')', ']', '\x7d'] := by
    intro hmem
    rw [opensWith_mark r hr c hmem] at hopens
    cases hopens
  have htakes : r.Takes u t := by
    rw [Takes, hc, first?_group_eq hmark, ← hc, h]
  have hfits := Lexeme.fits_of_takes hne htakes hemit hcls hloose
  obtain ⟨q, -, hq, hqemit, hqmove⟩ := (hfits.onward hblank b).takes
  refine ⟨q, ?_, hqemit, hqmove.trans (htakes.move_eq hemit)⟩
  obtain ⟨d, w, rfl⟩ := List.exists_cons_of_ne_nil hne
  obtain rfl : d = c := (List.cons.inj hc).1
  rw [← hq, List.cons_append, first?_group_eq hmark]

/-- The marks that end an expression, and spaces, match as before. -/
theorem Pattern.length?_onward {p : Pattern} {s : List Char} (hs : s ≠ []) (b : List Char)
    (hp : p ∈ [.separator, .closer, .closerAhead, .decoratorEnd, .groupCloser, .spreadEnd, .spaces]) :
    p.length? (s ++ '\n' :: b) = p.length? s := by
  obtain ⟨c, v, rfl⟩ := List.exists_cons_of_ne_nil hs
  simp only [List.mem_cons, List.not_mem_nil, or_false] at hp
  rcases hp with rfl | rfl | rfl | rfl | rfl | rfl | rfl
  case inr.inr.inr.inr.inr.inr =>
    have htake : (c :: v ++ '\n' :: b).takeWhile isSpace = (c :: v).takeWhile isSpace := by
      rw [List.takeWhile_append, List.takeWhile_cons_of_neg (l := b) (by decide), List.append_nil]
      split
      · rename_i hlen
        exact (List.takeWhile_prefix isSpace).eq_of_length hlen |>.symm
      · rfl
    simp only [length?, many, htake]
  all_goals rfl

/-- The rest of a line is the same, unless the text ends in it. -/
theorem Pattern.atLineEnd_onward {s : List Char} {n : Nat} (hn : n ≤ s.length)
    (hs : atLineEnd s n = none → ¬ Spent (s.drop n)) (b : List Char) :
    atLineEnd (s ++ '\n' :: b) n = atLineEnd s n := by
  have hblank : ∀ c ∈ (s.drop n).takeWhile isSpace, isBlank c = true :=
    fun c hc => isBlank_of_isSpace (takeWhile_forall isSpace _ c hc)
  have hsplit : (s.drop n).takeWhile isSpace ++ (s.drop n).dropWhile isSpace = s.drop n :=
    List.takeWhile_append_dropWhile
  unfold atLineEnd at hs ⊢
  rw [List.drop_append_of_le_length hn, List.dropWhile_append]
  cases hd : (s.drop n).dropWhile isSpace with
  | nil =>
    rw [hd, List.append_nil] at hsplit
    rw [hd] at hs
    exact absurd (spent_of_blank (hsplit ▸ hblank)) (hs rfl)
  | cons c x =>
    rw [hd] at hsplit hs
    simp only [List.isEmpty_cons, Bool.false_eq_true, if_false, List.cons_append]
    by_cases hc : c = '\n'
    · subst hc
      rfl
    · by_cases hc' : c = '/'
      · subst hc'
        cases x with
        | nil => rfl
        | cons d y =>
          by_cases hd' : d = '/'
          · subst hd'
            cases hy : y.contains '\n' with
            | true =>
              have hmem : '\n' ∈ y := by simpa using hy
              simp [hmem]
            | false =>
              simp only [hy] at hs
              refine absurd ⟨_, _, hsplit.symm, hblank, .inr ⟨y, rfl, ?_⟩⟩ (hs rfl)
              simpa using hy
          · simp [hd']
      · simp [hc, hc']

/-- A string literal at the end of a line is the last thing of a value as before. -/
theorem Mode.lastString_onward (hne : u ++ t ≠ [])
    (h : Rule.first? Mode.attribute.rules (u ++ t) = some (u.length, r))
    (hstray : r.effect ≠ .emit .stray) (hspent : r.pattern = .string → ¬ Spent t) (b : List Char) :
    Pattern.lastString.length? (u ++ t ++ '\n' :: b) = Pattern.lastString.length? (u ++ t) := by
  obtain ⟨c, v, hv⟩ := List.exists_cons_of_ne_nil hne
  by_cases hc : c = '"'
  · subst hc
    rw [hv, Rule.first?_eq_filter] at h
    cases hstring : Pattern.string.length? (u ++ t) with
    | none =>
      rw [hv] at hstring
      have hlast : Pattern.lastString.length? ('"' :: v) = none := by
        simp only [Pattern.length?] at hstring ⊢
        rw [hstring, Option.bind_none]
      have hquote := ((Rule.first?_cons_none hlast).trans ((Rule.first?_cons_none hstring).trans
        (Rule.first?_cons_some rfl))).symm.trans h
      simp only [Option.some.injEq, Prod.mk.injEq] at hquote
      exact absurd (hquote.2 ▸ rfl) hstray
    | some n =>
      have hle := Pattern.length?_le hstring
      have hstring' := (Pattern.length?_append_iff (t := '\n' :: b) rfl hle).mpr hstring
      have hlast : Pattern.lastString.length? (u ++ t) = Pattern.atLineEnd (u ++ t) n := by
        simp only [Pattern.length?] at hstring ⊢
        rw [hstring, Option.bind_some]
      have hlast' : Pattern.lastString.length? (u ++ t ++ '\n' :: b) =
          Pattern.atLineEnd (u ++ t ++ '\n' :: b) n := by
        simp only [Pattern.length?] at hstring' ⊢
        rw [hstring', Option.bind_some]
      rw [hlast, hlast']
      refine Pattern.atLineEnd_onward hle (fun hnone => ?_) b
      rw [hnone, hv] at hlast
      rw [hv] at hstring
      have hrule := ((Rule.first?_cons_none hlast).trans (Rule.first?_cons_some hstring)).symm.trans h
      simp only [Option.some.injEq, Prod.mk.injEq] at hrule
      rw [hrule.1, List.drop_left]
      exact hspent (hrule.2 ▸ rfl)
  · rw [hv, List.cons_append]
    have hopens : Pattern.lastString.opensWith c = false := decide_eq_false hc
    rw [Pattern.length?_eq_none hopens, Pattern.length?_eq_none hopens]

/-- What the modes of expressions have in front of the rules that they share. -/
theorem Mode.rules_of_value (m : Mode) (hm : m.isBody = false) (hm' : m ≠ .expression) :
    ∃ own, m.rules = own ++ Rule.expression ∧ ∀ q ∈ own,
      q.pattern ∈ [.separator, .closer, .closerAhead, .decoratorEnd, .groupCloser, .spreadEnd,
        .spaces] ∨ m = .attribute ∧ q.pattern = .lastString := by
  cases m with
  | root | element | component => cases hm
  | expression => exact absurd rfl hm'
  | _ => exact ⟨_, rfl, by simp⟩

theorem Mode.first?_onward_value (hm : m.isBody = false) (hm' : m ≠ .expression)
    (hne : u ++ t ≠ []) (h : Rule.first? m.rules (u ++ t) = some (u.length, r))
    (hitem : ∀ cls, r.effect = .emit cls → u ≠ [] ∧ cls ≠ .stray ∧ isLoose u t = false)
    (hblank : r.pattern = .blanks → t ≠ []) {b : List Char}
    (hlast : m = .attribute → Pattern.lastString.length? (u ++ t ++ '\n' :: b) =
      Pattern.lastString.length? (u ++ t)) :
    ∃ q, Rule.first? m.rules (u ++ (t ++ '\n' :: b)) = some (u.length, q) ∧
      q.effect = r.effect ∧ q.move = r.move := by
  obtain ⟨own, hrules, hown⟩ := m.rules_of_value hm hm'
  have hsame : ∀ q ∈ own,
      q.pattern.length? (u ++ t ++ '\n' :: b) = q.pattern.length? (u ++ t) := by
    intro q hq
    rcases hown q hq with hp | ⟨hattribute, hp⟩
    · exact Pattern.length?_onward hne b hp
    · rw [hp]
      exact hlast hattribute
  have hfirst := Rule.first?_congr hsame
  rw [hrules, Rule.first?_append] at h ⊢
  rw [← List.append_assoc, hfirst]
  cases hcase : Rule.first? own (u ++ t) with
  | some p =>
    rw [hcase] at h
    exact ⟨r, h, rfl, rfl⟩
  | none =>
    rw [hcase] at h
    have hexpression : ∀ q ∈ Rule.expression, q.effect ≠ .skip ∧
        (q.effect = .emit .blank → q.pattern = .blanks) := by decide
    have hmem := (Rule.first?_eq_some h).1
    cases hemit : r.effect with
    | skip => exact absurd hemit (hexpression r hmem).1
    | emit cls =>
      obtain ⟨hu, hcls, hloose⟩ := hitem cls hemit
      rw [List.append_assoc, Option.none_or]
      refine Rule.first?_onward_expression hu h hemit hcls hloose (fun hc => hblank ?_) b
      exact (hexpression r hmem).2 (hc ▸ hemit)

end

end BlockMarkup
