import BlockMarkup.Proofs.Text.Strip

/-!
# BlockMarkup.Proofs.Text.Name

The texts that names, tags, paths and string literals consist of, each as a set of texts of its own.
-/

namespace BlockMarkup
namespace Text

def isName : List Char → Bool
  | [] => false
  | c :: s => startsName c && s.all isWord

def isTag : List Char → Bool
  | [] => false
  | c :: s => isLower c && s.all continuesTag

/-- What follows the first character of a path: word characters, and names behind `::`. -/
def isPathTail : List Char → Bool
  | [] => true
  | ':' :: ':' :: c :: s => startsName c && isPathTail s
  | c :: s => isWord c && isPathTail s

/-- Names that are joined by `::`. -/
def isPath : List Char → Bool
  | [] => false
  | c :: s => startsName c && isPathTail s

/-- What may stand between the quotes of a string literal. A backslash takes the next character
with it, which is no line feed; a quote needs a backslash. -/
def isQuotable : List Char → Bool
  | [] => true
  | '\\' :: c :: s => c ≠ '\n' && isQuotable s
  | c :: s => c ≠ '"' && c ≠ '\\' && isQuotable s

theorem isBlank_colon : isBlank ':' = false := by decide

theorem isWord_colon : isWord ':' = false := by decide

theorem not_blank_of_isName {s : List Char} (h : isName s = true) : ∀ c ∈ s, isBlank c = false := by
  cases s with
  | nil => cases h
  | cons d s =>
    simp only [isName, Bool.and_eq_true, List.all_eq_true] at h
    intro c hc
    cases List.mem_cons.mp hc with
    | inl he => rw [he]; exact isBlank_eq_false_of_startsName h.1
    | inr hm => exact isBlank_eq_false_of_isWord (h.2 c hm)

theorem isName_of_isTag {s : List Char} (h : isTag s = true) : isName s = true := by
  cases s with
  | nil => cases h
  | cons d s =>
    simp only [isTag, isName, Bool.and_eq_true, List.all_eq_true] at h ⊢
    exact ⟨startsName_of_isLower h.1, fun c hc => isWord_of_continuesTag (h.2 c hc)⟩

theorem not_blank_of_isPathTail (s : List Char) :
    isPathTail s = true → ∀ c ∈ s, isBlank c = false := by
  fun_induction isPathTail s with
  | case1 => intro _ c hc; cases hc
  | case2 d s ih =>
    intro h c hc
    rw [Bool.and_eq_true] at h
    simp only [List.mem_cons] at hc
    rcases hc with rfl | rfl | rfl | hc
    · exact isBlank_colon
    · exact isBlank_colon
    · exact isBlank_eq_false_of_startsName h.1
    · exact ih h.2 c hc
  | case3 d s _ ih =>
    intro h c hc
    rw [Bool.and_eq_true] at h
    cases List.mem_cons.mp hc with
    | inl he => rw [he]; exact isBlank_eq_false_of_isWord h.1
    | inr hm => exact ih h.2 c hm

theorem not_blank_of_isPath {s : List Char} (h : isPath s = true) : ∀ c ∈ s, isBlank c = false := by
  cases s with
  | nil => cases h
  | cons d s =>
    rw [isPath, Bool.and_eq_true] at h
    intro c hc
    cases List.mem_cons.mp hc with
    | inl he => rw [he]; exact isBlank_eq_false_of_startsName h.1
    | inr hm => exact not_blank_of_isPathTail s h.2 c hm

/-- The characters of paths. -/
theorem mem_isPath {s : List Char} (h : isPath s = true) : ∀ c ∈ s, isWord c = true ∨ c = ':' := by
  have htail : ∀ s, isPathTail s = true → ∀ c ∈ s, isWord c = true ∨ c = ':' := by
    intro s
    fun_induction isPathTail s with
    | case1 => intro _ c hc; cases hc
    | case2 d s ih =>
      intro h c hc
      rw [Bool.and_eq_true, startsName, Bool.and_eq_true] at h
      simp only [List.mem_cons] at hc
      rcases hc with rfl | rfl | rfl | hc
      · exact .inr rfl
      · exact .inr rfl
      · exact .inl h.1.1
      · exact ih h.2 c hc
    | case3 d s _ ih =>
      intro h c hc
      rw [Bool.and_eq_true] at h
      rcases List.mem_cons.mp hc with rfl | hm
      · exact .inl h.1
      · exact ih h.2 c hm
  cases s with
  | nil => cases h
  | cons d s =>
    rw [isPath, Bool.and_eq_true, startsName, Bool.and_eq_true] at h
    intro c hc
    rcases List.mem_cons.mp hc with rfl | hm
    · exact .inl h.1.1
    · exact htail s h.2 c hm

theorem brace_not_mem_of_isPath {s : List Char} (h : isPath s = true) : '\x7b' ∉ s := by
  intro hc
  rcases mem_isPath h _ hc with hw | he
  · exact absurd hw (by decide)
  · cases he

theorem isPathTail_of_isWord {s : List Char} (h : ∀ c ∈ s, isWord c = true) :
    isPathTail s = true := by
  induction s with
  | nil => rfl
  | cons c s ih =>
    have hc := h c List.mem_cons_self
    have hs := ih fun d hd => h d (List.mem_cons_of_mem _ hd)
    unfold isPathTail
    split
    · rfl
    · rename_i he
      cases he
      exact absurd (hc.symm.trans isWord_colon) nofun
    · rename_i he
      cases he
      rw [hc, hs]
      rfl

theorem isPath_of_isTag {s : List Char} (h : isTag s = true) : isPath s = true := by
  have hname := isName_of_isTag h
  cases s with
  | nil => cases h
  | cons c s =>
    simp only [isName, Bool.and_eq_true, List.all_eq_true] at hname
    rw [isPath, hname.1, isPathTail_of_isWord hname.2]
    rfl

end Text
end BlockMarkup
