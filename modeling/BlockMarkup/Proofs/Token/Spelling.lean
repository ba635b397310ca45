import BlockMarkup.Proofs.Text.Name
import BlockMarkup.Proofs.Token.Bound

/-!
# BlockMarkup.Proofs.Token.Spelling

Which texts the patterns of names and string literals match: a name, a tag or a path with white
space and the mark behind it (`length?_tag_iff`, `length?_path_iff`, `length?_name_iff`,
`length?_quotedName_iff`), and a quotable text between quotes (`stringLength?_iff`).
-/

namespace BlockMarkup

open Text

/-! ## Runs of characters -/

theorem takeWhile_append_stop {p : Char → Bool} {u v : List Char} (hu : ∀ c ∈ u, p c = true)
    (hv : ∀ c ∈ v.head?, p c = false) : (u ++ v).takeWhile p = u := by
  rw [List.takeWhile_append_of_pos hu]
  cases v with
  | nil => simp
  | cons c v => rw [List.takeWhile_cons_of_neg (by rw [hv c rfl]; simp), List.append_nil]

theorem head?_dropWhile_eq_false {p : Char → Bool} {s : List Char} :
    ∀ c ∈ (s.dropWhile p).head?, p c = false := by
  intro c hc
  have := List.head?_dropWhile_not p s
  rw [Option.mem_def] at hc
  rw [hc] at this
  simpa using this

theorem takeWhile_forall {α : Type} (p : α → Bool) (s : List α) :
    ∀ c ∈ s.takeWhile p, p c = true :=
  List.all_eq_true.mp List.all_takeWhile

theorem drop_length_takeWhile (p : Char → Bool) (s : List Char) :
    s.drop (s.takeWhile p).length = s.dropWhile p := by
  induction s with
  | nil => rfl
  | cons c s ih =>
    cases h : p c with
    | true => simpa [h] using ih
    | false => simp [h]

theorem Text.leading_append {w s : List Char} (hw : ∀ c ∈ w, isBlank c = true)
    (hs : ∀ c ∈ s.head?, isBlank c = false) : leading (w ++ s) = w.length := by
  rw [leading, takeWhile_append_stop hw hs]

/-! ## The marks behind a name -/

namespace Pattern

theorem withBrace_append {p w t : List Char} (hw : ∀ c ∈ w, isBlank c = true) :
    withBrace (p ++ (w ++ '\x7b' :: t)) p.length = some (p.length + w.length + 1) := by
  have hlead : leading (w ++ '\x7b' :: t) = w.length :=
    leading_append hw (by intro c hc; cases hc; decide)
  simp [withBrace, hlead]

theorem withBrace_split {s : List Char} {k n : Nat} (h : withBrace s k = some n) :
    ∃ w t, s = s.take k ++ (w ++ '\x7b' :: t) ∧ (∀ c ∈ w, isBlank c = true) ∧
      n = k + w.length + 1 := by
  obtain ⟨hn, -, t, ht⟩ := withBrace_eq_some h
  refine ⟨(s.drop k).takeWhile isBlank, t, ?_, takeWhile_forall _ _, hn⟩
  rw [← List.drop_drop, leading, drop_length_takeWhile] at ht
  rw [← ht, List.takeWhile_append_dropWhile, List.take_append_drop]

theorem withColon_append {p w t : List Char} (hw : ∀ c ∈ w, isBlank c = true)
    (ht : ∀ c ∈ t.head?, c ≠ ':') :
    withColon (p ++ (w ++ ':' :: t)) p.length = some (p.length + w.length + 1) := by
  have hlead : leading (w ++ ':' :: t) = w.length :=
    leading_append hw (by intro c hc; cases hc; decide)
  cases t with
  | nil => simp [withColon, hlead]
  | cons c t =>
    have hc : c ≠ ':' := ht c rfl
    simp [withColon, hlead, hc]

theorem withColon_split {s : List Char} {k n : Nat} (h : withColon s k = some n) :
    ∃ w t, s = s.take k ++ (w ++ ':' :: t) ∧ (∀ c ∈ w, isBlank c = true) ∧
      (∀ c ∈ t.head?, c ≠ ':') ∧ n = k + w.length + 1 := by
  obtain ⟨hn, -, t, ht, hne⟩ := withColon_eq_some h
  refine ⟨(s.drop k).takeWhile isBlank, t, ?_, takeWhile_forall _ _, ?_, hn⟩
  · rw [← List.drop_drop, leading, drop_length_takeWhile] at ht
    rw [← ht, List.takeWhile_append_dropWhile, List.take_append_drop]
  · intro c hc he
    cases t with
    | nil => cases hc
    | cons d t =>
      cases hc
      exact hne t (by rw [he])

/-! ## Names, tags and paths -/

theorem tagLength?_append {p s : List Char} (hp : isTag p = true)
    (hs : ∀ c ∈ s.head?, continuesTag c = false) : tagLength? (p ++ s) = some p.length := by
  cases p with
  | nil => cases hp
  | cons c p =>
    simp only [isTag, Bool.and_eq_true, List.all_eq_true] at hp
    simp [tagLength?, hp.1, takeWhile_append_stop hp.2 hs]

theorem tagLength?_split {s : List Char} {k : Nat} (h : tagLength? s = some k) :
    isTag (s.take k) = true ∧ (s.take k).length = k := by
  cases s with
  | nil => cases h
  | cons c s =>
    simp only [tagLength?] at h
    split at h
    · rename_i hc
      cases h
      have htake : s.take (s.takeWhile continuesTag).length = s.takeWhile continuesTag :=
        List.prefix_iff_eq_take.mp (List.takeWhile_prefix _) |>.symm
      simp only [List.take_succ_cons, htake, isTag, hc, Bool.true_and, List.length_cons, and_true]
      exact List.all_takeWhile
    · cases h

theorem nameLength?_append {p s : List Char} (hp : isName p = true)
    (hs : ∀ c ∈ s.head?, isWord c = false) : nameLength? (p ++ s) = some p.length := by
  cases p with
  | nil => cases hp
  | cons c p =>
    simp only [isName, Bool.and_eq_true, List.all_eq_true] at hp
    simp [nameLength?, hp.1, takeWhile_append_stop hp.2 hs]

theorem nameLength?_split {s : List Char} {k : Nat} (h : nameLength? s = some k) :
    isName (s.take k) = true ∧ (s.take k).length = k := by
  cases s with
  | nil => cases h
  | cons c s =>
    simp only [nameLength?] at h
    split at h
    · rename_i hc
      cases h
      have htake : s.take (s.takeWhile isWord).length = s.takeWhile isWord :=
        List.prefix_iff_eq_take.mp (List.takeWhile_prefix _) |>.symm
      simp only [List.take_succ_cons, htake, isName, hc, Bool.true_and, List.length_cons, and_true]
      exact List.all_takeWhile
    · cases h

theorem pathTail_append {s : List Char} (hs : ∀ c ∈ s.head?, isWord c = false ∧ c ≠ ':')
    (p : List Char) : isPathTail p = true → pathTail (p ++ s) = p.length := by
  fun_induction isPathTail p with
  | case1 =>
    intro _
    cases s with
    | nil => simp [pathTail]
    | cons c s =>
      obtain ⟨hw, hc⟩ := hs c rfl
      unfold pathTail
      split
      · rename_i he
        cases he
      · rename_i he
        simp at he
        exact absurd he.1 hc
      · rename_i c' s' _ he
        simp at he
        rw [← he.1, if_neg (by simp [hw])]
        simp
  | case2 c p ih =>
    intro h
    rw [Bool.and_eq_true] at h
    simp only [List.cons_append, pathTail, h.1, if_true, List.length_cons, ih h.2]
  | case3 c p hne ih =>
    intro h
    rw [Bool.and_eq_true] at h
    have hc : c ≠ ':' := by
      rintro rfl
      rw [isWord_colon] at h
      cases h.1
    unfold pathTail
    split
    · rename_i he
      cases he
    · rename_i he
      simp at he
      exact absurd he.1 hc
    · rename_i c' s' _ he
      simp only [List.cons_append, List.cons.injEq] at he
      obtain ⟨rfl, rfl⟩ := he
      simp only [h.1, if_true, List.length_cons, ih h.2]

theorem isPathTail_take (s : List Char) : isPathTail (s.take (pathTail s)) = true := by
  fun_induction pathTail s with
  | case1 => rfl
  | case2 c s hc ih => simp [isPathTail, hc, ih]
  | case3 => rfl
  | case4 c s hne hc ih =>
    have hcolon : c ≠ ':' := by
      rintro rfl
      rw [isWord_colon] at hc
      cases hc
    rw [List.take_succ_cons, isPathTail.eq_3 _ _ (by intro d t he _; exact hcolon he)]
    simp [hc, ih]
  | case5 => rfl

theorem pathLength?_append {p s : List Char} (hp : isPath p = true)
    (hs : ∀ c ∈ s.head?, isWord c = false ∧ c ≠ ':') : pathLength? (p ++ s) = some p.length := by
  cases p with
  | nil => cases hp
  | cons c p =>
    rw [isPath, Bool.and_eq_true] at hp
    simp [pathLength?, hp.1, pathTail_append hs p hp.2]

theorem pathLength?_split {s : List Char} {k : Nat} (h : pathLength? s = some k) :
    isPath (s.take k) = true ∧ (s.take k).length = k := by
  cases s with
  | nil => cases h
  | cons c s =>
    simp only [pathLength?] at h
    split at h
    · rename_i hc
      cases h
      have hlen := pathTail_le s
      simp only [List.take_succ_cons, isPath, hc, Bool.true_and, isPathTail_take, List.length_cons,
        List.length_take, true_and]
      omega
    · cases h

/-- Behind white space or nothing, a mark is no part of a name. -/
theorem isWord_head_of_mark {w t : List Char} {m : Char} (hw : ∀ c ∈ w, isBlank c = true)
    (hm : isWord m = false) : ∀ c ∈ (w ++ m :: t).head?, isWord c = false := by
  intro d hd
  cases w with
  | nil => cases hd; exact hm
  | cons c w =>
    cases hd
    cases hdw : isWord d with
    | false => rfl
    | true =>
      have hb := isBlank_eq_false_of_isWord hdw
      rw [hw d List.mem_cons_self] at hb
      cases hb

theorem length?_tag_iff {s : List Char} {n : Nat} :
    Pattern.tag.length? s = some n ↔
      ∃ p w t, s = p ++ (w ++ '\x7b' :: t) ∧ isTag p = true ∧ (∀ c ∈ w, isBlank c = true) ∧
        n = p.length + w.length + 1 := by
  constructor
  · intro h
    obtain ⟨k, hk, hn⟩ := Option.bind_eq_some_iff.mp h
    obtain ⟨htag, hlen⟩ := tagLength?_split hk
    obtain ⟨w, t, hs, hw, rfl⟩ := withBrace_split hn
    exact ⟨s.take k, w, t, hs, htag, hw, by rw [hlen]⟩
  · rintro ⟨p, w, t, rfl, hp, hw, rfl⟩
    have hk : tagLength? (p ++ (w ++ '\x7b' :: t)) = some p.length := by
      apply tagLength?_append hp
      intro c hc
      cases hct : continuesTag c with
      | false => rfl
      | true =>
        have hword := isWord_head_of_mark hw (by decide) c hc
        rw [isWord_of_continuesTag hct] at hword
        cases hword
    simp only [length?, hk, Option.bind_some, withBrace_append hw]

theorem length?_path_iff {s : List Char} {n : Nat} :
    Pattern.path.length? s = some n ↔
      ∃ p w t, s = p ++ (w ++ '\x7b' :: t) ∧ isPath p = true ∧ (∀ c ∈ w, isBlank c = true) ∧
        n = p.length + w.length + 1 := by
  constructor
  · intro h
    obtain ⟨k, hk, hn⟩ := Option.bind_eq_some_iff.mp h
    obtain ⟨hpath, hlen⟩ := pathLength?_split hk
    obtain ⟨w, t, hs, hw, rfl⟩ := withBrace_split hn
    exact ⟨s.take k, w, t, hs, hpath, hw, by rw [hlen]⟩
  · rintro ⟨p, w, t, rfl, hp, hw, rfl⟩
    have hk : pathLength? (p ++ (w ++ '\x7b' :: t)) = some p.length := by
      apply pathLength?_append hp
      intro c hc
      refine ⟨isWord_head_of_mark hw (by decide) c hc, ?_⟩
      rintro rfl
      cases w with
      | nil => simp at hc
      | cons c w =>
        cases hc
        have := hw ':' List.mem_cons_self
        rw [isBlank_colon] at this
        cases this
    simp only [length?, hk, Option.bind_some, withBrace_append hw]

theorem length?_name_iff {s : List Char} {n : Nat} :
    Pattern.name.length? s = some n ↔
      ∃ p w t, s = p ++ (w ++ ':' :: t) ∧ isName p = true ∧ (∀ c ∈ w, isBlank c = true) ∧
        (∀ c ∈ t.head?, c ≠ ':') ∧ n = p.length + w.length + 1 := by
  constructor
  · intro h
    obtain ⟨k, hk, hn⟩ := Option.bind_eq_some_iff.mp h
    obtain ⟨hname, hlen⟩ := nameLength?_split hk
    obtain ⟨w, t, hs, hw, ht, rfl⟩ := withColon_split hn
    exact ⟨s.take k, w, t, hs, hname, hw, ht, by rw [hlen]⟩
  · rintro ⟨p, w, t, rfl, hp, hw, ht, rfl⟩
    have hk : nameLength? (p ++ (w ++ ':' :: t)) = some p.length :=
      nameLength?_append hp (isWord_head_of_mark hw isWord_colon)
    simp only [length?, hk, Option.bind_some, withColon_append hw ht]

/-! ## String literals -/

theorem stringTail_append {s : List Char} (b : List Char) :
    isQuotable b = true → stringTail (b ++ '"' :: s) = some (b.length + 1) := by
  fun_induction isQuotable b with
  | case1 => intro _; rfl
  | case2 c b ih =>
    intro h
    simp only [Bool.and_eq_true, decide_eq_true_eq] at h
    simp [stringTail, h.1, ih h.2]
  | case3 c b hne ih =>
    intro h
    simp only [Bool.and_eq_true, decide_eq_true_eq] at h
    obtain ⟨⟨hq, hs⟩, hb⟩ := h
    rw [List.cons_append, stringTail.eq_5 _ _ hq (fun he _ => hs he) (fun d t he _ => hs he)]
    simp [ih hb]

theorem stringTail_split (s : List Char) : ∀ n, stringTail s = some n →
    ∃ b t, s = b ++ '"' :: t ∧ isQuotable b = true ∧ n = b.length + 1 := by
  fun_induction stringTail s with
  | case1 => intro n h; cases h
  | case2 s => intro n h; cases h; exact ⟨[], s, rfl, rfl, rfl⟩
  | case3 => intro n h; cases h
  | case4 s => intro n h; cases h
  | case5 c s hc ih =>
    intro n h
    obtain ⟨k, hk, rfl⟩ := Option.map_eq_some_iff.mp h
    obtain ⟨b, t, rfl, hb, rfl⟩ := ih k hk
    exact ⟨'\\' :: c :: b, t, rfl, by simp [isQuotable, hc, hb], rfl⟩
  | case6 c s hq hs hs' ih =>
    intro n h
    obtain ⟨k, hk, rfl⟩ := Option.map_eq_some_iff.mp h
    obtain ⟨b, t, rfl, hb, rfl⟩ := ih k hk
    have hslash : c ≠ '\\' := by
      intro he
      cases b with
      | nil => exact hs' '"' t he rfl
      | cons d b => exact hs' d (b ++ '"' :: t) he rfl
    refine ⟨c :: b, t, rfl, ?_, rfl⟩
    rw [isQuotable.eq_3 _ _ (fun d u he _ => hslash he)]
    simp [hslash, hb]
    exact hq

theorem stringLength?_iff {s : List Char} {n : Nat} :
    stringLength? s = some n ↔
      ∃ b t, s = '"' :: (b ++ '"' :: t) ∧ isQuotable b = true ∧ n = b.length + 2 := by
  constructor
  · intro h
    unfold stringLength? at h
    split at h
    · obtain ⟨k, hk, rfl⟩ := Option.map_eq_some_iff.mp h
      obtain ⟨b, t, rfl, hb, rfl⟩ := stringTail_split _ k hk
      exact ⟨b, t, rfl, hb, rfl⟩
    · cases h
  · rintro ⟨b, t, rfl, hb, rfl⟩
    simp [stringLength?, stringTail_append b hb]

theorem length?_quotedName_iff {s : List Char} {n : Nat} :
    Pattern.quotedName.length? s = some n ↔
      ∃ b w t, s = '"' :: (b ++ '"' :: (w ++ ':' :: t)) ∧ isQuotable b = true ∧
        (∀ c ∈ w, isBlank c = true) ∧ (∀ c ∈ t.head?, c ≠ ':') ∧ n = b.length + w.length + 3 := by
  constructor
  · intro h
    obtain ⟨k, hk, hn⟩ := Option.bind_eq_some_iff.mp h
    obtain ⟨b, u, rfl, hb, rfl⟩ := stringLength?_iff.mp hk
    obtain ⟨w, t, hs, hw, ht, rfl⟩ := withColon_split hn
    have htake : ('"' :: (b ++ '"' :: u)).take (b.length + 2) = '"' :: (b ++ ['"']) := by
      simp [List.take_append, List.take_of_length_le (Nat.le_succ b.length)]
    rw [htake] at hs
    simp only [List.cons_append, List.append_assoc, List.cons.injEq, List.append_cancel_left_eq,
      true_and, List.nil_append] at hs
    refine ⟨b, w, t, by rw [hs], hb, hw, ht, by omega⟩
  · rintro ⟨b, w, t, rfl, hb, hw, ht, rfl⟩
    have hk := stringLength?_iff.mpr ⟨b, w ++ ':' :: t, rfl, hb, rfl⟩
    have hsplit : '"' :: (b ++ '"' :: (w ++ ':' :: t)) = ('"' :: (b ++ ['"'])) ++ (w ++ ':' :: t) := by
      simp
    have hcolon := withColon_append (p := '"' :: (b ++ ['"'])) hw ht
    simp only [List.length_cons, List.length_append, List.length_nil] at hcolon
    simp only [length?, hk, Option.bind_some]
    rw [hsplit, hcolon]
    congr 1
    omega

/-! ## First characters -/

/-- The characters that a match of the pattern can start with. -/
def opensWith : Pattern → Char → Bool
  | .blanks, c => isBlank c
  | .spaces, c => isSpace c
  | .lineComment, c | .blockComment, c => c = '/'
  | .separator, c => c = ','
  | .decorator, c => c = '#'
  | .string, c | .quotedName, c | .lastString, c | .quote, c => c = '"'
  | .opener, c => c = '\x7b'
  | .closer, c | .closerAhead, c => c = '\x7d'
  | .decoratorEnd, c => c = ']'
  | .tag, c => isLower c
  | .path, c | .name, c => startsName c
  | .dots, c => c = '.'
  | .spreadEnd, c => c = ',' || c = '\x7d' || c = '\n'
  | .hashString, c | .rawString, c => c = 'r'
  | .char, c => c = '\''
  | .groupOpener, c => c = '(' || c = '[' || c = '\x7b'
  | .groupCloser, c => c = ')' || c = ']' || c = '\x7d'
  | .looseMark, c => c = ')' || c = ']' || c = '\x7d' || c = ','
  | .run, c => !endsRun c || c = '/' || c = '\''

theorem opensWith_of_length? {p : Pattern} {s : List Char} {n : Nat} (h : p.length? s = some n) :
    ∃ c t, s = c :: t ∧ p.opensWith c = true := by
  have hone : ∀ q : Char → Bool, one q s = some n → ∃ c t, s = c :: t ∧ q c = true := by
    intro q hq
    exact (one_eq_some hq).2
  have hmany : ∀ q : Char → Bool, many q s = some n → ∃ c t, s = c :: t ∧ q c = true := by
    intro q hq
    obtain ⟨hn, hpos⟩ := many_eq_some.mp hq
    cases s with
    | nil =>
      rw [hn] at hpos
      exact absurd hpos (Nat.lt_irrefl 0)
    | cons c t =>
      refine ⟨c, t, rfl, ?_⟩
      cases hc : q c with
      | true => rfl
      | false => simp [many, hc] at hq
  have hstring : ∀ k, stringLength? s = some k → ∃ c t, s = c :: t ∧ decide (c = '"') = true := by
    intro k hk
    obtain ⟨b, t, hs, -⟩ := stringLength?_iff.mp hk
    exact ⟨_, _, hs, rfl⟩
  cases p <;> simp only [length?, opensWith] at h ⊢
  case blanks | spaces => exact hmany _ h
  case separator | opener | closer | decoratorEnd | quote | groupOpener | groupCloser | looseMark =>
    exact hone _ h
  case closerAhead | spreadEnd => exact (ahead_eq_some h).2
  case lineComment | blockComment | decorator | dots | hashString | rawString | char =>
    split at h <;> first | exact ⟨_, _, rfl, rfl⟩ | cases h
  case string => exact hstring _ h
  case lastString | quotedName =>
    obtain ⟨k, hk, -⟩ := Option.bind_eq_some_iff.mp h
    exact hstring k hk
  case tag | path | name =>
    obtain ⟨k, hk, -⟩ := Option.bind_eq_some_iff.mp h
    cases s with
    | nil => cases hk
    | cons c t =>
      simp only [tagLength?, pathLength?, nameLength?] at hk
      split at hk
      · rename_i hc
        exact ⟨c, t, rfl, hc⟩
      · cases hk
  case run =>
    split at h
    · rename_i k hk
      cases h
      obtain ⟨c, t, hs, hc⟩ := hmany _ hk
      exact ⟨c, t, hs, by simp only [hc, Bool.true_or]⟩
    · obtain ⟨c, t, hs, hc⟩ := hone _ h
      exact ⟨c, t, hs, by rw [Bool.or_assoc, hc, Bool.or_true]⟩

/-- A pattern does not match at a character that its matches cannot start with. -/
theorem length?_eq_none {p : Pattern} {c : Char} {s : List Char} (h : p.opensWith c = false) :
    p.length? (c :: s) = none := by
  cases hn : p.length? (c :: s) with
  | none => rfl
  | some n =>
    obtain ⟨d, t, hs, hd⟩ := opensWith_of_length? hn
    cases hs
    rw [h] at hd
    cases hd

/-- Only white space is matched at white space. -/
theorem head_not_blank {p : Pattern} {s : List Char} {n : Nat} (hblanks : p ≠ .blanks)
    (hspaces : p ≠ .spaces) (hp : p.looksAhead = false) (h : p.length? s = some n) :
    ∃ c t, s = c :: t ∧ isBlank c = false := by
  obtain ⟨c, t, hs, hc⟩ := opensWith_of_length? h
  refine ⟨c, t, hs, ?_⟩
  cases p <;> simp only [opensWith, looksAhead, Bool.or_eq_true, decide_eq_true_eq,
    Bool.not_eq_true'] at hc hp
  case blanks => exact absurd rfl hblanks
  case spaces => exact absurd rfl hspaces
  case closerAhead | spreadEnd => cases hp
  case tag => exact isBlank_eq_false_of_isWord (isWord_of_isLower hc)
  case path | name => exact isBlank_eq_false_of_startsName hc
  case groupOpener | groupCloser => rcases hc with (rfl | rfl) | rfl <;> decide
  case looseMark => rcases hc with ((rfl | rfl) | rfl) | rfl <;> decide
  case run =>
    rcases hc with (hc | rfl) | rfl
    · rw [endsRun, Bool.or_eq_false_iff] at hc
      exact hc.1
    · decide
    · decide
  all_goals
    subst hc
    decide

end Pattern
end BlockMarkup
