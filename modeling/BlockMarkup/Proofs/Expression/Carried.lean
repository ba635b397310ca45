import BlockMarkup.Proofs.Expression.Relaid

/-!
# BlockMarkup.Proofs.Expression.Carried

The tokens of a text after its lines are laid out anew. A token that may not change, or has no white
space at a line feed, stays as it is (`Relaid.firm`), a comment stays a comment (`Relaid.line`,
`Relaid.block`), and so lexing finds the same tokens but for white space and comments
(`Relaid.cuts`).
-/

namespace BlockMarkup

open Text

namespace Relaid

variable {P : Relayout} {n : Nat} {s t : List Char}

/-! ## Tokens stay in one piece -/

/-- A text that ends in something else than white space stays, if its lines are firm, and they are
numbered one after the other. -/
theorem firm {u : List Char} (hlast : ∀ c ∈ u.getLast?, isBlank c = false)
    (hP : ∀ k, n < k → k ≤ n + u.count '\n' → P.firm k) (h : Relaid P n (u ++ s) t) :
    ∃ t', t = u ++ t' ∧ (∀ i ≤ u.count '\n', P.line (n + i) = P.line n + i) ∧
      Relaid P (n + u.count '\n') s t' := by
  induction u generalizing n t with
  | nil =>
    refine ⟨t, rfl, fun i hi => ?_, h⟩
    rw [Nat.le_zero.mp hi]
    rfl
  | cons c u ih =>
    obtain ⟨d, hd, hsolid⟩ : ∃ d ∈ c :: u, isBlank d = false := by
      refine ⟨(c :: u).getLast nofun, List.getLast_mem _, hlast _ ?_⟩
      exact List.getLast?_eq_getLast_of_ne_nil _
    have hlast' : ∀ d ∈ u.getLast?, isBlank d = false := by
      intro d hd
      refine hlast d ?_
      rw [List.getLast?_cons, Option.mem_def.mp hd]
      rfl
    generalize hs : c :: u ++ s = r at h
    cases h with
    | done hw _ =>
      subst hs
      rw [hw d (List.mem_append_left _ hd)] at hsolid
      cases hsolid
    | keep hc h =>
      cases hs
      rw [List.count_cons_of_ne hc] at hP ⊢
      obtain ⟨t', rfl, hline, hrest⟩ := ih hlast' hP h
      exact ⟨t', rfl, hline, hrest⟩
    | feed hnext h =>
      cases hs
      rw [List.count_cons_self] at hP ⊢
      obtain ⟨t', rfl, hline, hrest⟩ := ih hlast' (fun k hk hle => hP k (by omega) (by omega)) h
      refine ⟨t', rfl, fun i hi => ?_, by rwa [Nat.add_assoc, Nat.add_comm 1] at hrest⟩
      cases i with
      | zero => rfl
      | succ i =>
        have hi' := hline i (Nat.le_of_succ_le_succ hi)
        rw [hnext, Nat.add_right_comm n 1, Nat.add_right_comm _ 1] at hi'
        exact hi'
    | @soft _ w _ _ _ hw hfeed hsoft _ _ _ _ =>
      -- The white space of a line that may change neither starts inside the text nor goes beyond it.
      exfalso
      have hcount : 0 < w.count '\n' := List.count_pos_iff.mpr hfeed
      rcases List.append_eq_append_iff.mp hs with ⟨v, rfl, -⟩ | ⟨v, he, -⟩
      · rw [hw d (List.mem_append_left _ hd)] at hsolid
        cases hsolid
      · refine hsoft (n + 1) (by omega) (by omega) (hP (n + 1) (by omega) ?_)
        rw [he, List.count_append]
        omega

/-- A text on one line stays, up to white space at the end of the line. -/
theorem line {v : List Char} (hv : '\n' ∉ v) (hs : ∀ c ∈ s.head?, c = '\n')
    (h : Relaid P n (v ++ s) t) : ∃ v' t', t = v' ++ t' ∧ '\n' ∉ v' ∧ (∀ c ∈ t'.head?, c = '\n') ∧
      Relaid P n s t' := by
  induction v generalizing n t with
  | nil =>
    refine ⟨[], t, rfl, nofun, fun c hc => ?_, h⟩
    cases s with
    | nil =>
      rcases Relaid.inv_nil h with rfl | rfl
      · cases hc
      · cases hc
        rfl
    | cons d s =>
      obtain rfl := hs d rfl
      generalize hr : [] ++ '\n' :: s = r at h
      cases h with
      | done _ hv =>
        rcases hv with rfl | rfl
        · cases hc
        · cases hc
          rfl
      | keep hne _ =>
        cases hr
        exact absurd rfl hne
      | feed _ _ | soft _ _ _ _ _ _ _ =>
        cases hc
        rfl
  | cons c v ih =>
    have hc : '\n' ≠ c := fun he => hv (he ▸ List.mem_cons_self)
    have hv' : '\n' ∉ v := fun hm => hv (List.mem_cons_of_mem _ hm)
    generalize hr : c :: v ++ s = r at h
    cases h with
    | done hw ht =>
      subst hr
      refine ⟨[], t, rfl, nofun, ?_, .done (fun d hd => hw d (List.mem_append_right _ hd)) ht⟩
      rcases ht with rfl | rfl
      · exact nofun
      · rintro d ⟨⟩
        rfl
    | keep _ h =>
      cases hr
      obtain ⟨v', t', rfl, hv'', hhead, hrest⟩ := ih hv' h
      exact ⟨c :: v', t', rfl, fun hm => (List.mem_cons.mp hm).elim hc hv'', hhead, hrest⟩
    | feed _ _ =>
      cases hr
      exact absurd rfl hc
    | @soft _ w m s' t' hw hfeed hsoft hm hmfeed hline hrest =>
      -- The white space at the end of the line is no longer part of the text.
      obtain ⟨a, rfl, rfl⟩ : ∃ a, w = c :: v ++ a ∧ s = a ++ s' := by
        rcases List.append_eq_append_iff.mp hr with ⟨a, he, hs'⟩ | ⟨a, he, -⟩
        · exact ⟨a, he, hs'⟩
        · rw [he] at hv
          exact absurd (List.mem_append_left _ hfeed) hv
      rw [List.count_append, List.count_eq_zero_of_not_mem hv, Nat.zero_add] at hrest hline hsoft
      refine ⟨[], '\n' :: (m ++ t'), rfl, nofun, (by rintro d ⟨⟩; rfl), .soft ?_ ?_ hsoft hm hmfeed
        hline hrest⟩
      · exact fun d hd => hw d (List.mem_append_right _ hd)
      · exact (List.mem_append.mp hfeed).resolve_left hv

/-- A comment with its end stays a comment with its end. -/
theorem block {b : List Char} (hb : throughPair '*' '/' b = some b.length)
    (h : Relaid P n (b ++ s) t) : ∃ b' t', t = b' ++ t' ∧
      throughPair '*' '/' b' = some b'.length ∧
      P.line (n + b.count '\n') = P.line n + b'.count '\n' ∧ Relaid P (n + b.count '\n') s t' := by
  induction hk : b.length using Nat.strong_induction_on generalizing b n t with
  | _ k ih =>
    cases b with
    | nil => cases hb
    | cons c b =>
      have hlast := last_of_throughPair hb
      have hmem : '/' ∈ c :: b := List.mem_of_mem_getLast? hlast
      by_cases hpair : c = '*' ∧ b.head? = some '/'
      · obtain ⟨rfl, hhead⟩ := hpair
        obtain ⟨b, rfl⟩ := List.head?_eq_some_iff.mp hhead
        obtain rfl : b = [] := by simpa [throughPair] using hb
        obtain ⟨t₁, rfl, h₁⟩ := h.inv_keep (by decide)
        obtain ⟨t₂, rfl, h₂⟩ := h₁.inv_keep (by decide)
        exact ⟨['*', '/'], t₂, rfl, rfl, rfl, h₂⟩
      · have hrest : throughPair '*' '/' b = some b.length := by
          rw [not_and_or] at hpair
          have hmap : throughPair '*' '/' (c :: b) = (throughPair '*' '/' b).map (· + 1) := by
            rcases hpair with hc | hhead
            · exact throughPair_cons_of_ne hc b
            · exact throughPair_cons_of_head hhead c
          rw [hmap] at hb
          obtain ⟨j, hj, he⟩ := Option.map_eq_some_iff.mp hb
          rw [hj, Nat.succ.inj he]
        generalize hr : c :: b ++ s = r at h
        cases h with
        | done hw _ =>
          subst hr
          exact absurd (hw '/' (List.mem_append_left _ hmem)) (by decide)
        | keep hc h =>
          cases hr
          obtain ⟨b', t', rfl, hb', hline, h'⟩ := ih b.length (by rw [← hk]; exact Nat.lt_succ_self _)
            hrest h rfl
          rw [← List.count_cons_of_ne hc] at hline h'
          refine ⟨c :: b', t', rfl, ?_, by rwa [List.count_cons_of_ne hc (l := b')], h'⟩
          by_cases hstar : c = '*'
          · rw [throughPair_cons_of_head, hb']
            · rfl
            · intro hhead
              obtain ⟨b'', rfl⟩ := List.head?_eq_some_iff.mp hhead
              rcases h.head '/' rfl with hblank | hslash
              · exact absurd hblank (by decide)
              · cases b with
                | nil => cases hrest
                | cons d b => exact hpair ⟨hstar, hslash⟩
          · rw [throughPair_cons_of_ne hstar, hb']
            rfl
        | feed hnext h =>
          cases hr
          obtain ⟨b', t', rfl, hb', hline, h'⟩ := ih b.length (by rw [← hk]; exact Nat.lt_succ_self _)
            hrest h rfl
          refine ⟨'\n' :: b', t', rfl, ?_, ?_, ?_⟩
          · rw [throughPair_cons_of_ne (by decide), hb']
            rfl
          · rw [List.count_cons_self, List.count_cons_self, Nat.add_comm _ 1, ← Nat.add_assoc, hline,
              hnext]
            omega
          · rwa [List.count_cons_self, Nat.add_comm _ 1, ← Nat.add_assoc]
        | @soft _ w m s' t' hw hfeed hsoft hm hmfeed hnext h =>
          obtain ⟨v, he, rfl⟩ : ∃ v, c :: b = w ++ v ∧ s' = v ++ s := by
            rcases List.append_eq_append_iff.mp hr with ⟨a, rfl, -⟩ | ⟨a, he, hs'⟩
            · exact absurd (hw '/' (List.mem_append_left _ hmem)) (by decide)
            · exact ⟨a, he, hs'⟩
          rw [he, throughPair_blanks (by decide) hw] at hb
          have hv : throughPair '*' '/' v = some v.length := by
            obtain ⟨j, hj, hlen⟩ := Option.map_eq_some_iff.mp hb
            rw [List.length_append] at hlen
            rw [hj]
            congr 1
            omega
          have hlt : v.length < k := by
            have hpos := List.length_pos_of_mem hfeed
            have hlength := congrArg List.length he
            rw [List.length_append] at hlength
            omega
          obtain ⟨b', t'', rfl, hb', hline, h'⟩ := ih v.length hlt hv h rfl
          refine ⟨'\n' :: (m ++ b'), t'', by simp, ?_, ?_, ?_⟩
          · rw [throughPair_cons_of_ne (by decide), throughPair_blanks (by decide) hm, hb']
            simp only [Option.map_some, List.length_cons, List.length_append, Option.some.injEq]
            omega
          · rw [he, List.count_append, ← Nat.add_assoc, hline, hnext, List.count_cons_self,
              List.count_append, List.count_eq_zero_of_not_mem hmfeed]
            omega
          · rwa [he, List.count_append, ← Nat.add_assoc]

theorem firm_of_solid {u : List Char} (hu : ∀ c ∈ u, isBlank c = false) (h : Relaid P n (u ++ s) t) :
    ∃ t', t = u ++ t' ∧ (∀ i ≤ u.count '\n', P.line (n + i) = P.line n + i) ∧
      Relaid P (n + u.count '\n') s t' := by
  refine firm (fun c hc => hu c (List.mem_of_mem_getLast? hc)) (fun k hk hle => ?_) h
  have hfeed : '\n' ∉ u := fun hm => absurd (hu _ hm) (by decide)
  rw [List.count_eq_zero_of_not_mem hfeed] at hle
  omega

/-- No opening mark becomes loose. -/
theorem isLoose_eq_false {u : List Char} (h : Relaid P n s t) (hs : isLoose u s = false) :
    isLoose u t = false := by
  cases ht : isLoose u t with
  | false => rfl
  | true =>
    simp only [isLoose, Bool.or_eq_true, Bool.and_eq_true, decide_eq_true_eq] at ht
    have hhead : ∀ c, isBlank c = false → t.head? = some c → s.head? = some c := by
      intro c hc htc
      rcases h.head c htc with hb | hs
      · rw [hc] at hb
        cases hb
      · exact hs
    have hloose : isLoose u s = true := by
      simp only [isLoose, Bool.or_eq_true, Bool.and_eq_true, decide_eq_true_eq]
      rcases ht with ⟨hu, ht⟩ | ⟨hu, ht⟩
      · exact .inl ⟨hu, hhead '*' (by decide) ht⟩
      · exact .inr ⟨hu, hhead '"' (by decide) ht⟩
    exact hloose.symm.trans hs

/-- The lexeme `l` in front of `s` has become a lexeme of `t`, of which `S` holds there: a comment may
have changed behind its mark. -/
def Carried (S : List Char → Lexeme → Prop) (P : Relayout) (n : Nat) (l : Lexeme)
    (s t : List Char) : Prop :=
  ∃ u t', t = u ++ t' ∧ S t' ⟨u, l.cls⟩ ∧ u.take 2 = l.text.take 2 ∧
    (l.cls ≠ .comment → u = l.text ∧ ∀ i ≤ u.count '\n', P.line (n + i) = P.line n + i) ∧
    P.line (n + l.text.count '\n') = P.line n + u.count '\n' ∧
    Relaid P (n + l.text.count '\n') s t'

section

variable {S : List Char → Lexeme → Prop} {l : Lexeme} {t' : List Char}

theorem Carried.of_firm (hS : S t' l) (hline : ∀ i ≤ l.text.count '\n', P.line (n + i) = P.line n + i)
    (h : Relaid P (n + l.text.count '\n') s t') : Carried S P n l s (l.text ++ t') :=
  ⟨l.text, t', rfl, hS, rfl, fun _ => ⟨rfl, hline⟩, hline _ (Nat.le_refl _), h⟩

/-- A lexeme on one line is carried over as it is. -/
theorem Carried.of_line (hS : S t' l) (hl : '\n' ∉ l.text) (h : Relaid P n s t') :
    Carried S P n l s (l.text ++ t') := by
  have hcount : l.text.count '\n' = 0 := List.count_eq_zero_of_not_mem hl
  refine .of_firm hS (fun i hi => ?_) (by rwa [hcount])
  rw [hcount] at hi
  rw [Nat.le_zero.mp hi]
  rfl

theorem Carried.imp {S' : List Char → Lexeme → Prop} (h : Carried S P n l s t)
    (hS : ∀ t l, S t l → S' t l) : Carried S' P n l s t := by
  obtain ⟨u, t', ht, hstands, hrest⟩ := h
  exact ⟨u, t', ht, hS _ _ hstands, hrest⟩

end

/-- Every lexeme that fits is carried over, but for white space. -/
theorem carried_of_fits {l : Lexeme} (hl : l.Fits s) (hblank : l.cls ≠ .blank)
    (hP : l.cls.isLiteral = true → ∀ k, n < k → k ≤ n + l.text.count '\n' → P.firm k)
    (h : Relaid P n (l.text ++ s) t) : Carried Lexeme.Fits P n l s t := by
  cases hl with
  | @closed r u cls hr hclosed hemit hu =>
    by_cases hblock : r.pattern = .blockComment
    · rw [hblock] at hu
      obtain ⟨v, rfl⟩ := Pattern.lead_isPrefix hu
      have hrule : ∀ q ∈ Mode.group.rules, q.pattern = .blockComment →
          q = ⟨.blockComment, .emit .comment, .stay⟩ := by decide
      have hr' := hr
      obtain rfl := hrule r hr hblock
      cases hemit
      have hv : throughPair '*' '/' v = some v.length := by
        obtain ⟨k, hk, he⟩ := Option.map_eq_some_iff.mp hu
        obtain rfl : k = v.length := Nat.succ.inj (Nat.succ.inj he)
        exact hk
      obtain ⟨t₁, rfl, h₁⟩ := inv_keep (c := '/') (s := '*' :: (v ++ s)) (by decide) h
      obtain ⟨t₂, rfl, h₂⟩ := h₁.inv_keep (by decide)
      obtain ⟨v', t', rfl, hv', hline, h'⟩ := h₂.block hv
      have hlength : Pattern.blockComment.length? ('/' :: '*' :: v') =
          some ('/' :: '*' :: v').length := by
        simp [Pattern.length?, hv']
      exact ⟨'/' :: '*' :: v', t', rfl, .closed hr' rfl rfl hlength, rfl,
        fun hne => absurd rfl hne, hline, h'⟩
    · have hfirm : ∃ t', t = u ++ t' ∧ (∀ i ≤ u.count '\n', P.line (n + i) = P.line n + i) ∧
          Relaid P (n + u.count '\n') s t' := by
        have hkind : ∀ q ∈ Mode.group.rules, ∀ k, q.pattern.isClosed = true →
            q.pattern ≠ .blockComment → q.effect = .emit k →
            k.isLiteral = true ∨ q.pattern = .separator ∨ q.pattern = .groupOpener ∨
              q.pattern = .groupCloser := by
          intro q hq k
          simp only [Mode.rules, Rule.expression, List.cons_append, List.nil_append, List.mem_cons,
            List.not_mem_nil, or_false] at hq
          rcases hq with rfl | rfl | rfl | rfl | rfl | rfl | rfl | rfl | rfl | rfl | rfl | rfl <;>
            intro _ _ he <;> cases he <;> simp_all [Pattern.isClosed, TokenClass.isLiteral]
        have hlast := Pattern.last_of_length? hclosed hu
        rcases hkind r hr cls hclosed hblock hemit with hliteral | hsingle
        · exact firm hlast (hP hliteral) h
        · have hlength : ∃ c, u = [c] := by
            rcases hsingle with hp | hp | hp <;> rw [hp] at hu <;>
              (obtain ⟨hn, c, v, rfl, -⟩ := Pattern.one_eq_some hu
               obtain rfl : v = [] := by simpa using hn
               exact ⟨c, rfl⟩)
          obtain ⟨c, rfl⟩ := hlength
          refine firm_of_solid (fun d hd => ?_) h
          cases List.mem_singleton.mp hd
          exact hlast _ rfl
      obtain ⟨t', rfl, hline, h'⟩ := hfirm
      exact .of_firm (.closed hr hclosed hemit hu) hline h'
  | @comment v hv hs =>
    obtain ⟨t₁, rfl, h₁⟩ := inv_keep (c := '/') (s := '/' :: (v ++ s)) (by decide) h
    obtain ⟨t₂, rfl, h₂⟩ := h₁.inv_keep (by decide)
    obtain ⟨v', t', rfl, hv', hhead, h'⟩ := h₂.line hv hs
    have hcount : ∀ v : List Char, '\n' ∉ v → ('/' :: '/' :: v).count '\n' = 0 := fun v hv =>
      List.count_eq_zero_of_not_mem (by simpa using hv)
    refine ⟨'/' :: '/' :: v', t', rfl, .comment hv' hhead, rfl, fun hne => absurd rfl hne, ?_, ?_⟩
    · rw [hcount v hv, hcount v' hv']
      rfl
    · rwa [hcount v hv]
  | blank _ _ _ => exact absurd rfl hblank
  | @run u hne hu hs hloose =>
    have hsolid : ∀ c ∈ u, isBlank c = false := by
      intro c hc
      have hends := hu c hc
      rw [Pattern.endsRun, Bool.or_eq_false_iff] at hends
      exact hends.1
    obtain ⟨t', rfl, hline, h'⟩ := firm_of_solid hsolid h
    refine .of_firm (.run hne hu (fun c hc => ?_) (h'.isLoose_eq_false hloose)) hline h'
    rcases h'.head c hc with hb | hhead
    · rw [Pattern.endsRun, hb, Bool.true_or]
    · exact hs c hhead
  | slash hslash hloose =>
    obtain ⟨t', rfl, h'⟩ := inv_keep (c := '/') (by decide) h
    refine Carried.of_line (l := ⟨['/'], .text⟩)
      (.slash (fun ht => ?_) (h'.isLoose_eq_false hloose)) (by decide) h'
    rcases h'.head '/' ht with hb | hhead
    · exact absurd hb (by decide)
    · exact hslash hhead
  | tick hs =>
    obtain ⟨t', rfl, h'⟩ := inv_keep (c := '\'') (by decide) h
    exact Carried.of_line (l := ⟨['\''], .text⟩) (.tick (h'.charTail_none hs)) (by decide) h'

/-- Every lexeme but white space is carried over. -/
theorem carried {l : Lexeme} (hl : Lexeme.Stands s l) (hblank : l.cls ≠ .blank)
    (hP : l.cls.isLiteral = true → ∀ k, n < k → k ≤ n + l.text.count '\n' → P.firm k)
    (h : Relaid P n (l.text ++ s) t) : Carried Lexeme.Stands P n l s t := by
  cases hl with
  | fits hl => exact (carried_of_fits hl hblank hP h).imp fun _ _ => .fits
  | quote hs =>
    obtain ⟨t', rfl, h'⟩ := inv_keep (c := '"') (by decide) h
    exact Carried.of_line (l := ⟨['"'], .stray⟩) (.quote (h'.stringTail_none.1 hs)) (by decide) h'
  | @comment v hv =>
    obtain ⟨t₁, rfl, h₁⟩ := inv_keep (c := '/') (s := '*' :: v) (by decide) h
    obtain ⟨t₂, rfl, h₂⟩ := h₁.inv_keep (by decide)
    exact Carried.of_line (l := ⟨['/'], .text⟩)
      (.comment (h₂.throughPair_none (by decide) (by decide) hv)) (by decide) h₁
  | @raw v hv =>
    obtain ⟨t₁, rfl, h₁⟩ := inv_keep (c := 'r') (s := '"' :: v) (by decide) h
    obtain ⟨t₂, rfl, h₂⟩ := h₁.inv_keep (by decide)
    exact Carried.of_line (l := ⟨['r'], .text⟩) (.raw (h₂.through_none (by decide) hv)) (by decide) h₁
  | @hash v hv =>
    obtain ⟨t₁, rfl, h₁⟩ := inv_keep (c := 'r') (s := '#' :: '"' :: v) (by decide) h
    obtain ⟨t₂, rfl, h₂⟩ := h₁.inv_keep (by decide)
    obtain ⟨t₃, rfl, h₃⟩ := h₂.inv_keep (by decide)
    exact Carried.of_line (l := ⟨['r', '#'], .text⟩)
      (.hash (h₃.throughPair_none (by decide) (by decide) hv)) (by decide) h₂

end Relaid

/-! ## All tokens of a text -/

/-- The lexemes of tokens without the comments. -/
def core (ts : List Token) : List Lexeme :=
  (ts.filter fun t => t.cls ≠ .comment).map Token.lexeme

/-- Line `k` starts inside a literal; `n` line feeds stand in front of the text `s`, and its tokens `ts`
start at position `pos`. -/
def LiteralLine (n pos : Nat) (s : List Char) (ts : List Token) (k : Nat) : Prop :=
  ∃ t ∈ ts, t.cls.isLiteral = true ∧ n + (s.take (t.pos - pos)).count '\n' < k ∧
    k ≤ n + (s.take (t.pos - pos)).count '\n' + t.text.count '\n'

section

variable {n pos k : Nat} {s : List Char} {ts : List Token}

/-- A text without tokens has no such lines, in whatever way they are numbered. -/
theorem literalLine_nil_iff {m pos' : Nat} {t : List Char} {line : Nat → Nat} :
    LiteralLine m pos' t [] k ↔ ∃ i, LiteralLine n pos s [] i ∧ line i = k := by
  refine iff_of_false nofun ?_
  rintro ⟨i, ⟨t, ht, -⟩, -⟩
  cases ht

theorem literalLine_cons {u : List Char} {cls : TokenClass} :
    LiteralLine n pos s (⟨pos, u, cls⟩ :: ts) k ↔
      (cls.isLiteral = true ∧ n < k ∧ k ≤ n + u.count '\n') ∨ LiteralLine n pos s ts k := by
  simp [LiteralLine]

theorem Cuts.pos_le (h : Cuts pos s ts) : ∀ t ∈ ts, pos ≤ t.pos := by
  intro t ht
  obtain ⟨a, b, -, hpos⟩ := h.exists_split t ht
  omega

/-- A text in front without a token shifts the lines. -/
theorem Cuts.literalLine_append {u : List Char} (h : Cuts (pos + u.length) s ts) :
    LiteralLine n pos (u ++ s) ts k ↔
      LiteralLine (n + u.count '\n') (pos + u.length) s ts k := by
  have hcount : ∀ t ∈ ts, n + ((u ++ s).take (t.pos - pos)).count '\n' =
      n + u.count '\n' + (s.take (t.pos - (pos + u.length))).count '\n' := by
    intro t ht
    have hle := h.pos_le t ht
    have hpos : t.pos - pos = u.length + (t.pos - (pos + u.length)) := by omega
    rw [hpos, List.take_length_add_append, List.count_append, Nat.add_assoc]
  constructor
  · rintro ⟨t, ht, hliteral, hk⟩
    rw [hcount t ht] at hk
    exact ⟨t, ht, hliteral, hk⟩
  · rintro ⟨t, ht, hliteral, hk⟩
    rw [← hcount t ht] at hk
    exact ⟨t, ht, hliteral, hk⟩

end

theorem Cuts.lexeme {pos : Nat} {s : List Char} {l : Lexeme} {ts : List Token}
    (hl : Lexeme.Stands s l) (hblank : l.cls ≠ .blank) (h : Cuts (pos + l.text.length) s ts) :
    Cuts pos (l.text ++ s) (⟨pos, l.text, l.cls⟩ :: ts) := by
  obtain ⟨r, htakes, hemit⟩ := hl.takes
  exact .piece hl.text_ne_nil htakes hemit hblank h

theorem core_cons (t : Token) (ts : List Token) :
    core (t :: ts) = if t.cls = .comment then core ts else t.lexeme :: core ts := by
  by_cases ht : t.cls = .comment
  · rw [if_pos ht, core, List.filter_cons_of_neg (by simp [ht])]
    rfl
  · rw [if_neg ht, core, List.filter_cons_of_pos (by simp [ht])]
    rfl

/-- Lines that are numbered one after the other. -/
theorem exists_line_iff {line : Nat → Nat} {n m j : Nat} (h : ∀ i ≤ m, line (n + i) = line n + i) :
    (∃ k, (n < k ∧ k ≤ n + m) ∧ line k = j) ↔ line n < j ∧ j ≤ line n + m := by
  constructor
  · rintro ⟨k, ⟨hlt, hle⟩, rfl⟩
    have hk := h (k - n) (by omega)
    rw [Nat.add_sub_of_le (Nat.le_of_lt hlt)] at hk
    omega
  · rintro ⟨hlt, hle⟩
    refine ⟨n + (j - line n), by omega, ?_⟩
    rw [h _ (by omega)]
    omega

/-- Where no line of a literal changes, a text has the same tokens after its lines are laid out anew,
but for white space and comments, and the same lines start inside a literal. -/
theorem Relaid.cuts {P : Relayout} {n pos : Nat} {s t : List Char} {ts : List Token}
    (h : Relaid P n s t) (hcuts : Cuts pos s ts) (hP : ∀ k, LiteralLine n pos s ts k → P.firm k)
    (pos' : Nat) : ∃ ts', Cuts pos' t ts' ∧ core ts' = core ts ∧
      ∀ j, LiteralLine (P.line n) pos' t ts' j ↔ ∃ k, LiteralLine n pos s ts k ∧ P.line k = j := by
  induction hk : s.length using Nat.strong_induction_on generalizing s t n pos pos' ts with
  | _ k ih =>
    -- White space in front, in both texts, shifts the lines.
    have hshift : ∀ {w v s' t' : List Char}, s = w ++ s' → t = v ++ t' → w ≠ [] →
        (∀ c ∈ w, isBlank c = true) → (∀ c ∈ v, isBlank c = true) →
        P.line (n + w.count '\n') = P.line n + v.count '\n' →
        Relaid P (n + w.count '\n') s' t' → ∃ ts', Cuts pos' t ts' ∧ core ts' = core ts ∧
          ∀ j, LiteralLine (P.line n) pos' t ts' j ↔
            ∃ k, LiteralLine n pos s ts k ∧ P.line k = j := by
      rintro w v s' t' rfl rfl hne hw hv hline h'
      have hcuts' := hcuts.inv_blanks hw
      have hshort : s'.length < k := by
        have hpos := List.length_pos_iff.mpr hne
        rw [← hk, List.length_append]
        omega
      obtain ⟨ts', hts', hcore, hlines⟩ := ih s'.length hshort h' hcuts'
        (fun k hk => hP k (hcuts'.literalLine_append.mpr hk)) (pos' + v.length) rfl
      refine ⟨ts', hts'.blanks hv, hcore, fun j => ?_⟩
      rw [hts'.literalLine_append, ← hline, hlines]
      simp only [hcuts'.literalLine_append]
    cases hcuts with
    | nil =>
      rcases h.inv_nil with rfl | rfl
      · exact ⟨[], .nil, rfl, fun _ => literalLine_nil_iff⟩
      · exact ⟨[], .blank (by decide) .nil, rfl, fun _ => literalLine_nil_iff⟩
    | @blank _ c s _ hc hcuts =>
      have hblank : ∀ d ∈ [c], isBlank d = true := List.forall_mem_singleton.mpr hc
      generalize hr : c :: s = r at h
      cases h with
      | done hw hv =>
        subst hr
        have hnil : ts = [] := by
          have hblank : Cuts (pos + 1) (s ++ []) ts := by rwa [List.append_nil]
          exact (hblank.inv_blanks fun d hd => hw d (List.mem_cons_of_mem _ hd)).inv_nil
        subst hnil
        rcases hv with rfl | rfl
        · exact ⟨[], .nil, rfl, fun _ => literalLine_nil_iff⟩
        · exact ⟨[], .blank (by decide) .nil, rfl, fun _ => literalLine_nil_iff⟩
      | @keep _ _ s t hne h =>
        cases hr
        have hcount : [c].count '\n' = 0 := List.count_eq_zero_of_not_mem (by simpa using hne.symm)
        exact hshift (w := [c]) (v := [c]) rfl rfl nofun hblank hblank (by rw [hcount]; rfl)
          (by rwa [hcount])
      | feed hnext h =>
        cases hr
        exact hshift (w := ['\n']) (v := ['\n']) rfl rfl nofun hblank hblank hnext h
      | @soft _ w m s' t' hw hfeed _ hm hmfeed hnext h =>
        have hcount : ('\n' :: m).count '\n' = 1 := by
          rw [List.count_cons_self, List.count_eq_zero_of_not_mem hmfeed]
        rw [← hr]
        refine hshift (w := w) (v := '\n' :: m) hr rfl (List.ne_nil_of_mem hfeed) hw ?_
          (by rw [hcount, hnext]) h
        exact List.forall_mem_cons.mpr ⟨by decide, hm⟩
    | @piece _ u s r cls ts hne htakes hemit hcls hcuts =>
      have hstands := Lexeme.stands_of_takes hne htakes hemit
      have hliteral : cls.isLiteral = true → ∀ k, n < k → k ≤ n + u.count '\n' → P.firm k :=
        fun hl k hk hle => hP k (literalLine_cons.mpr (.inl ⟨hl, hk, hle⟩))
      obtain ⟨v, t', rfl, hstands', -, hsame, hline, h'⟩ :=
        h.carried (l := ⟨u, cls⟩) hstands hcls hliteral
      have hshort : s.length < k := by
        have hpos := List.length_pos_iff.mpr hne
        rw [← hk, List.length_append]
        omega
      have hsource : ∀ k, LiteralLine n pos (u ++ s) (⟨pos, u, cls⟩ :: ts) k ↔
          (cls.isLiteral = true ∧ n < k ∧ k ≤ n + u.count '\n') ∨
            LiteralLine (n + u.count '\n') (pos + u.length) s ts k := by
        intro k
        rw [literalLine_cons, hcuts.literalLine_append]
      obtain ⟨ts', hts', hcore, hlines⟩ := ih s.length hshort h' hcuts
        (fun k hk => hP k ((hsource k).mpr (.inr hk))) (pos' + v.length) rfl
      refine ⟨_, Cuts.lexeme hstands' hcls hts', ?_, fun j => ?_⟩
      · rw [core_cons, core_cons, hcore]
        by_cases hcomment : cls = .comment
        · rw [if_pos hcomment, if_pos hcomment]
        · rw [if_neg hcomment, if_neg hcomment]
          show Lexeme.mk v cls :: _ = Lexeme.mk u cls :: _
          rw [(hsame hcomment).1]
      · rw [hline] at hlines
        rw [literalLine_cons, hts'.literalLine_append, hlines]
        simp only [hsource, or_and_right, exists_or]
        refine or_congr ?_ Iff.rfl
        cases hl : cls.isLiteral with
        | false => simp
        | true =>
          obtain ⟨rfl, hnumber⟩ := hsame (by rintro rfl; cases hl)
          simpa using (exists_line_iff hnumber).symm

end BlockMarkup
