/-
  SymbolAutomata/Proofs/Text/Blank.lean
  =====================================
  **Trimmed texts.**

  A text falls into blanks, a core without a blank at either end, and blanks.  The core is
  unique, and trimming finds it (`trim_eq_iff`).  Numerals have no blanks, so blanks around a
  numeral are all that trimming takes away.
-/
import Mathlib.Data.List.TakeWhile
import SymbolAutomata.Proofs.Text.Numeral
import SymbolAutomata.Text.Blank

namespace SymbolAutomata.Text

/-- Nothing but blanks. -/
def Blanks (text : List Char) : Prop := ∀ c ∈ text, isBlank c = true

instance (text : List Char) : Decidable (Blanks text) := List.decidableBAll (isBlank · = true) text

/-- **No blank at either end.** -/
structure Trimmed (text : List Char) : Prop where
  head : ∀ c rest, text = c :: rest → isBlank c = false
  last : ∀ front c, text = front ++ [c] → isBlank c = false

theorem trimmed_nil : Trimmed [] where
  head _ _ h := by cases h
  last _ _ h := by simp at h

theorem Trimmed.reverse {text : List Char} (h : Trimmed text) : Trimmed text.reverse where
  head c rest hrest := h.last rest.reverse c (by rw [← List.reverse_reverse text, hrest]; simp)
  last front c hfront := h.head c front.reverse (by rw [← List.reverse_reverse text, hfront]; simp)

/-- Blanks in front of a text without a blank at its head are dropped, and no more. -/
theorem dropWhile_blanks {before rest : List Char} (hbefore : Blanks before)
    (hrest : ∀ c more, rest = c :: more → isBlank c = false) :
    (before ++ rest).dropWhile isBlank = rest := by
  rw [List.dropWhile_append_of_pos hbefore]
  cases rest with
  | nil => rfl
  | cons c more => exact List.dropWhile_cons_of_neg (by simp [hrest c more rfl])

/-- What is left after dropping does not start with a blank. -/
theorem not_isBlank_of_dropWhile {text rest : List Char} {c : Char}
    (h : text.dropWhile isBlank = c :: rest) : isBlank c = false := by
  have hhead := List.head?_dropWhile_not isBlank text
  rw [h] at hhead
  simpa using hhead

theorem exists_blanks_dropWhile (text : List Char) :
    ∃ before, text = before ++ text.dropWhile isBlank ∧ Blanks before :=
  ⟨text.takeWhile isBlank, List.takeWhile_append_dropWhile.symm, fun _ hc =>
    List.mem_takeWhile_imp hc⟩

theorem Blanks.append {before after : List Char} (hbefore : Blanks before) (hafter : Blanks after) :
    Blanks (before ++ after) := List.forall_mem_append.2 ⟨hbefore, hafter⟩

theorem Blanks.reverse {text : List Char} (h : Blanks text) : Blanks text.reverse :=
  fun c hc => h c (List.mem_reverse.1 hc)

/-- Dropping from the end leaves out blanks at the end. -/
theorem exists_blanks_behind (text : List Char) :
    ∃ after, text = (text.reverse.dropWhile isBlank).reverse ++ after ∧ Blanks after := by
  obtain ⟨after, hafter, hblanks⟩ := exists_blanks_dropWhile text.reverse
  refine ⟨after.reverse, ?_, hblanks.reverse⟩
  rw [← List.reverse_append, ← hafter, List.reverse_reverse]

theorem trimmed_trim (text : List Char) : Trimmed (trim text) where
  head c rest hrest := by
    -- what trimming leaves starts as the text without its blanks in front does
    obtain ⟨after, hafter, -⟩ := exists_blanks_behind (text.dropWhile isBlank)
    have hstart : text.dropWhile isBlank = trim text ++ after := hafter
    rw [hrest] at hstart
    exact not_isBlank_of_dropWhile hstart
  last front c hfront := by
    have hback := List.reverse_eq_iff.1 hfront
    rw [List.reverse_append] at hback
    exact not_isBlank_of_dropWhile hback

theorem exists_blanks_trim (text : List Char) :
    ∃ before after, text = before ++ trim text ++ after ∧ Blanks before ∧ Blanks after := by
  obtain ⟨before, hbefore, hblanks⟩ := exists_blanks_dropWhile text
  obtain ⟨after, hafter, hblanks'⟩ := exists_blanks_behind (text.dropWhile isBlank)
  refine ⟨before, after, ?_, hblanks, hblanks'⟩
  rw [List.append_assoc]
  exact hbefore.trans (congrArg (before ++ ·) hafter)

/-- **Trimming finds the core.** -/
theorem trim_eq_iff {text core : List Char} : trim text = core ↔ Trimmed core ∧
    ∃ before after, text = before ++ core ++ after ∧ Blanks before ∧ Blanks after := by
  constructor
  · rintro rfl
    exact ⟨trimmed_trim text, exists_blanks_trim text⟩
  · rintro ⟨hcore, before, after, rfl, hbefore, hafter⟩
    unfold trim
    cases core with
    | nil =>
      have hall : (before ++ after ++ []).dropWhile isBlank = [] :=
        dropWhile_blanks (hbefore.append hafter) nofun
      rw [List.append_nil] at hall
      rw [List.append_nil, hall]
      rfl
    | cons c rest =>
      rw [List.append_assoc, dropWhile_blanks hbefore, List.reverse_append,
        dropWhile_blanks hafter.reverse hcore.reverse.head, List.reverse_reverse]
      intro d more hmore
      obtain ⟨rfl, -⟩ := List.cons.inj hmore
      exact hcore.head c rest rfl

theorem trim_eq_nil_iff {text : List Char} : trim text = [] ↔ Blanks text := by
  rw [trim_eq_iff]
  constructor
  · rintro ⟨-, before, after, rfl, hbefore, hafter⟩
    rw [List.append_nil]
    exact hbefore.append hafter
  · exact fun h => ⟨trimmed_nil, [], text, rfl, fun _ hc => absurd hc List.not_mem_nil, h⟩

/-! ### Numerals have no blanks -/

theorem isBlank_of_isDigit {c : Char} (h : c.isDigit = true) : isBlank c = false := by
  obtain ⟨d, hd, rfl⟩ := exists_digitChar h
  revert d
  decide

theorem Numeral.not_isBlank {text : List Char} {n : Int} (h : Numeral text n) {c : Char}
    (hc : c ∈ text) : isBlank c = false := by
  obtain ⟨front, rest, rfl⟩ := List.mem_iff_append.1 hc
  rcases h.isDigit_or_sign with hdigit | ⟨-, rfl | rfl⟩
  · exact isBlank_of_isDigit hdigit
  · decide
  · decide

theorem Numeral.trimmed {text : List Char} {n : Int} (h : Numeral text n) : Trimmed text where
  head c rest hrest := h.not_isBlank (by simp [hrest])
  last front c hfront := h.not_isBlank (by simp [hfront])

end SymbolAutomata.Text
