/-
  SymbolAutomata/Proofs/Word.lean
  ===============================
  **What texts of words mean.**

  A text falls into pieces at its commas.  A piece is blank and stands for nothing, or it is
  a numeral of 32 bits with blanks around it and stands for one symbol (`Piece`).  Reading
  succeeds just if every piece is of this kind, and then yields the symbols in their order;
  otherwise it names the first piece that is not (`read_word`).

  Numerals and blanks hold no commas, so the text that shows a list of symbols in decimal
  falls into the pieces it was put together from and is read back.
-/
import Mathlib.Data.List.Forall2
import SymbolAutomata.Proofs.Text.Blank
import SymbolAutomata.Word

namespace SymbolAutomata.Word

open Text

/-! ### One piece -/

/-- **The pieces of a word** and the symbols they stand for: none, or one of 32 bits. -/
inductive Piece : List Char → List Symbol → Prop where
  | blank {text : List Char} (h : Blanks text) : Piece text []
  | symbol {before numeral after : List Char} {s : Symbol} (hbefore : Blanks before)
      (hnumeral : Numeral numeral s) (hafter : Blanks after) (hleast : least32 ≤ s)
      (hgreatest : s ≤ greatest32) : Piece (before ++ numeral ++ after) [s]

section Pieces

variable {word : String} {text : List Char} {texts : List (List Char)} {part : List Symbol}
  {s : Symbol} {ss : List Symbol} {f : Failure} {fault : NumeralFault}

/-- A piece is read as it is trimmed. -/
theorem piece_iff : Piece text part ↔ (trim text = [] ∧ part = []) ∨
    ∃ s, part = [s] ∧ readSymbol (trim text) = .ok s := by
  constructor
  · intro h
    cases h with
    | blank h => exact Or.inl ⟨trim_eq_nil_iff.2 h, rfl⟩
    | @symbol before numeral after s hbefore hnumeral hafter hleast hgreatest =>
      have htrim : trim (before ++ numeral ++ after) = numeral :=
        trim_eq_iff.2 ⟨hnumeral.trimmed, before, after, rfl, hbefore, hafter⟩
      refine Or.inr ⟨s, rfl, ?_⟩
      rw [htrim]
      exact readSymbol_eq_ok_iff.2 ⟨hnumeral, hleast, hgreatest⟩
  · rintro (⟨htrim, rfl⟩ | ⟨s, rfl, hs⟩)
    · exact .blank (trim_eq_nil_iff.1 htrim)
    · obtain ⟨hnumeral, hleast, hgreatest⟩ := readSymbol_eq_ok_iff.1 hs
      obtain ⟨before, after, hsplit, hbefore, hafter⟩ := exists_blanks_trim text
      rw [hsplit]
      exact .symbol hbefore hnumeral hafter hleast hgreatest

theorem readSymbol_nil : readSymbol [] = .error .empty := rfl

theorem piece_iff_of_blank (h : trim text = []) : Piece text part ↔ part = [] := by
  simp [piece_iff, h, readSymbol_nil]

theorem piece_iff_of_read (h : readSymbol (trim text) = .ok s) : Piece text part ↔ part = [s] := by
  have hne : trim text ≠ [] := fun hnil => by simp [hnil, readSymbol_nil] at h
  simp [piece_iff, hne, h]

theorem not_piece_of_error (hne : trim text ≠ []) (h : readSymbol (trim text) = .error fault) :
    ¬ Piece text part := by
  simp [piece_iff, hne, h]

/-! ### All pieces -/

theorem readPieces_cons_of_blank (h : trim text = []) :
    readPieces word (text :: texts) = readPieces word texts := by
  simp [readPieces, h]

theorem readPieces_cons_of_read (h : readSymbol (trim text) = .ok s) :
    readPieces word (text :: texts) = (s :: ·) <$> readPieces word texts := by
  have hne : trim text ≠ [] := fun hnil => by simp [hnil, readSymbol_nil] at h
  simp [readPieces, hne, List.mapM_cons, readPiece, h]
  rfl

theorem readPieces_cons_of_error (hne : trim text ≠ [])
    (h : readSymbol (trim text) = .error fault) : readPieces word (text :: texts) =
      .error (.word (.badSymbol (String.ofList (trim text)) word fault)) := by
  simp [readPieces, hne, List.mapM_cons, readPiece, h]
  rfl

/-- **Reading succeeds just if every piece is one**, and yields what they stand for. -/
theorem readPieces_eq_ok_iff : readPieces word texts = .ok ss ↔
    ∃ parts, List.Forall₂ Piece texts parts ∧ ss = parts.flatten := by
  induction texts generalizing ss with
  | nil =>
    simp only [List.forall₂_nil_left_iff, exists_eq_left, List.flatten_nil]
    exact ⟨fun h => (Except.ok.inj h).symm, fun h => congrArg Except.ok h.symm⟩
  | cons text texts ih =>
    simp only [List.forall₂_cons_left_iff]
    by_cases hblank : trim text = []
    · rw [readPieces_cons_of_blank hblank, ih]
      simp only [piece_iff_of_blank hblank]
      constructor
      · rintro ⟨parts, hparts, rfl⟩
        exact ⟨[] :: parts, ⟨[], parts, rfl, hparts, rfl⟩, rfl⟩
      · rintro ⟨_, ⟨_, parts, rfl, hparts, rfl⟩, rfl⟩
        exact ⟨parts, hparts, rfl⟩
    · cases hread : readSymbol (trim text) with
      | error fault =>
        rw [readPieces_cons_of_error hblank hread]
        refine iff_of_false (fun h => by cases h) ?_
        rintro ⟨_, ⟨part, _, hpart, -⟩, -⟩
        exact not_piece_of_error hblank hread hpart
      | ok s =>
        rw [readPieces_cons_of_read hread]
        simp only [piece_iff_of_read hread]
        constructor
        · intro h
          obtain ⟨rest, hrest, rfl⟩ := exists_of_map_eq_ok h
          obtain ⟨parts, hparts, rfl⟩ := ih.1 hrest
          exact ⟨[s] :: parts, ⟨[s], parts, rfl, hparts, rfl⟩, rfl⟩
        · rintro ⟨_, ⟨_, parts, rfl, hparts, rfl⟩, rfl⟩
          rw [ih.2 ⟨parts, hparts, rfl⟩]
          rfl

/-- **The first piece that is none makes the reading fail.** -/
theorem readPieces_eq_error (word : String) (rest : List (List Char)) {front : List (List Char)}
    (hfront : ∀ piece ∈ front, ∃ part, Piece piece part) (hbad : ∀ part, ¬ Piece text part) :
    ∃ fault, readSymbol (trim text) = .error fault ∧ readPieces word (front ++ text :: rest) =
      .error (.word (.badSymbol (String.ofList (trim text)) word fault)) := by
  induction front with
  | nil =>
    have hne : trim text ≠ [] := fun h => hbad [] ((piece_iff_of_blank h).2 rfl)
    cases hread : readSymbol (trim text) with
    | ok s => exact absurd ((piece_iff_of_read hread).2 rfl) (hbad [s])
    | error fault => exact ⟨fault, rfl, readPieces_cons_of_error hne hread⟩
  | cons piece front ih =>
    rw [List.forall_mem_cons] at hfront
    obtain ⟨⟨part, hpart⟩, hfront⟩ := hfront
    obtain ⟨fault, hfault, hrest⟩ := ih hfront
    refine ⟨fault, hfault, ?_⟩
    rw [List.cons_append]
    rcases piece_iff.1 hpart with ⟨hblank, -⟩ | ⟨s, -, hread⟩
    · rw [readPieces_cons_of_blank hblank, hrest]
    · rw [readPieces_cons_of_read hread, hrest]
      rfl

/-- Texts are all pieces, or there is a first one that is not. -/
theorem pieces_or_exists_first (texts : List (List Char)) :
    (∃ parts, List.Forall₂ Piece texts parts) ∨
      ∃ front text rest, texts = front ++ text :: rest ∧
        (∀ piece ∈ front, ∃ part, Piece piece part) ∧ ∀ part, ¬ Piece text part := by
  induction texts with
  | nil => exact Or.inl ⟨[], .nil⟩
  | cons text texts ih =>
    by_cases htext : ∃ part, Piece text part
    · obtain ⟨part, hpart⟩ := htext
      rcases ih with ⟨parts, hparts⟩ | ⟨front, bad, rest, rfl, hfront, hbad⟩
      · exact Or.inl ⟨part :: parts, .cons hpart hparts⟩
      · exact Or.inr ⟨text :: front, bad, rest, rfl,
          List.forall_mem_cons.2 ⟨⟨part, hpart⟩, hfront⟩, hbad⟩
    · exact Or.inr ⟨[], text, texts, rfl, fun _ h => absurd h List.not_mem_nil,
        not_exists.1 htext⟩

end Pieces

/-! ### Texts that show words -/

/-- **A symbol in decimal**, with blanks around it. -/
def Shows (piece : String) (s : Symbol) : Prop :=
  ∃ before after : String, piece = before ++ toString s ++ after ∧ Blanks before.toList ∧
    Blanks after.toList

theorem Shows.piece {piece : String} {s : Symbol} (h : Shows piece s) (hleast : least32 ≤ s)
    (hgreatest : s ≤ greatest32) : Piece piece.toList [s] := by
  obtain ⟨before, after, rfl, hbefore, hafter⟩ := h
  rw [String.toList_append, String.toList_append]
  exact .symbol hbefore (numeral_toString s) hafter hleast hgreatest

theorem Shows.comma_not_mem {piece : String} {s : Symbol} (h : Shows piece s) :
    ',' ∉ piece.toList := by
  obtain ⟨before, after, rfl, hbefore, hafter⟩ := h
  have hblank : ∀ {text : List Char}, Blanks text → ',' ∉ text := fun ht hc =>
    absurd (ht ',' hc) (by decide)
  have hnumeral : ',' ∉ (toString s).toList := by
    intro hc
    obtain ⟨front, rest, hsplit⟩ := List.mem_iff_append.1 hc
    have hsign := numeral_toString s
    rw [hsplit] at hsign
    rcases hsign.isDigit_or_sign with hdigit | ⟨-, hplus | hminus⟩
    · exact absurd hdigit (by decide)
    · exact absurd hplus (by decide)
    · exact absurd hminus (by decide)
  rw [String.toList_append, String.toList_append, List.mem_append, List.mem_append]
  exact not_or.2 ⟨not_or.2 ⟨hblank hbefore, hnumeral⟩, hblank hafter⟩

/-- The pieces of a joined text are those it was put together from. -/
theorem splitOn_intercalate {pieces : List String} (hne : pieces ≠ [])
    (hcomma : ∀ piece ∈ pieces, ',' ∉ piece.toList) :
    (",".intercalate pieces).toList.splitOn ',' = pieces.map String.toList := by
  rw [String.toList_intercalate]
  exact List.splitOn_intercalate ',' (by simpa using hcomma) (by simpa using hne)

theorem pieces_of_shows {pieces : List String} {ss : List Symbol}
    (hshows : List.Forall₂ Shows pieces ss) (hbounds : ∀ s ∈ ss, least32 ≤ s ∧ s ≤ greatest32) :
    List.Forall₂ Piece (pieces.map String.toList) (ss.map fun s => [s]) ∧
      ∀ piece ∈ pieces, ',' ∉ piece.toList := by
  induction hshows with
  | nil => exact ⟨.nil, fun _ h => absurd h List.not_mem_nil⟩
  | cons hpiece _ ih =>
    rw [List.forall_mem_cons] at hbounds
    obtain ⟨hrest, hcomma⟩ := ih hbounds.2
    exact ⟨.cons (hpiece.piece hbounds.1.1 hbounds.1.2) hrest,
      List.forall_mem_cons.2 ⟨hpiece.comma_not_mem, hcomma⟩⟩

/-- **What is shown is read back.** -/
theorem read_intercalate {pieces : List String} {ss : List Symbol}
    (hshows : List.Forall₂ Shows pieces ss) (hbounds : ∀ s ∈ ss, least32 ≤ s ∧ s ≤ greatest32) :
    read (",".intercalate pieces) = .ok ss := by
  obtain ⟨hpieces, hcomma⟩ := pieces_of_shows hshows hbounds
  by_cases hne : pieces = []
  · -- the empty text is one blank piece
    subst hne
    cases hshows
    rfl
  · rw [read, splitOn_intercalate hne hcomma, readPieces_eq_ok_iff]
    exact ⟨ss.map fun s => [s], hpieces, (List.flatMap_singleton' ss).symm⟩

/-- **Reading words is exact.** A text is read just if each of its pieces between commas is blank
    or a numeral of 32 bits with blanks around it, and then as these numbers in their order. Any
    other text fails with its first piece that is neither, as it is trimmed. Numbers of 32 bits in
    decimal, with any blanks around them and commas between, are read back. -/
theorem read_word (word : String) :
    (∀ ss, read word = .ok ss ↔ ∃ parts, List.Forall₂ Piece (word.toList.splitOn ',') parts ∧
      ss = parts.flatten) ∧
    (∀ f, read word = .error f ↔ ∃ front text rest fault,
      word.toList.splitOn ',' = front ++ text :: rest ∧
        (∀ piece ∈ front, ∃ part, Piece piece part) ∧ (∀ part, ¬ Piece text part) ∧
          readSymbol (trim text) = .error fault ∧
            f = .word (.badSymbol (String.ofList (trim text)) word fault)) ∧
    ∀ pieces ss, List.Forall₂ Shows pieces ss → (∀ s ∈ ss, least32 ≤ s ∧ s ≤ greatest32) →
      word = ",".intercalate pieces → read word = .ok ss := by
  rw [read]
  refine ⟨fun ss => readPieces_eq_ok_iff, fun f => ⟨fun hf => ?_, ?_⟩, ?_⟩
  · rcases pieces_or_exists_first (word.toList.splitOn ',') with hall | hfirst
    · obtain ⟨parts, hparts⟩ := hall
      rw [readPieces_eq_ok_iff.2 ⟨parts, hparts, rfl⟩] at hf
      cases hf
    · obtain ⟨front, text, rest, hsplit, hfront, hbad⟩ := hfirst
      obtain ⟨fault, hfault, hread⟩ := readPieces_eq_error word rest hfront hbad
      rw [hsplit, hread] at hf
      exact ⟨front, text, rest, fault, hsplit, hfront, hbad, hfault, (Except.error.inj hf).symm⟩
  · rintro ⟨front, text, rest, fault, hsplit, hfront, hbad, hfault, rfl⟩
    obtain ⟨fault', hfault', hread⟩ := readPieces_eq_error word rest hfront hbad
    obtain rfl := Except.error.inj (hfault.symm.trans hfault')
    rw [hsplit, hread]
  · rintro pieces ss hshows hbounds rfl
    exact read_intercalate hshows hbounds

/-- The least number of 32 bits and the last symbol; a sign, leading zeros and a blank piece; and a
    blank within a piece. -/
theorem read_word_signed :
    read "-2147483648, 65526\t" = .ok [-2147483648, 65526] ∧
      (∃ parts, List.Forall₂ Piece (" +7, ,-0012".toList.splitOn ',') parts ∧
        [7, -12] = parts.flatten) ∧
      ∃ front text rest fault, "1,2 3,x".toList.splitOn ',' = front ++ text :: rest ∧
        (∀ piece ∈ front, ∃ part, Piece piece part) ∧ (∀ part, ¬ Piece text part) ∧
          readSymbol (trim text) = .error fault ∧
            Failure.word (.badSymbol "2 3" "1,2 3,x" .badDigit) =
              .word (.badSymbol (String.ofList (trim text)) "1,2 3,x" fault) := by
  refine ⟨?_, ((read_word _).1 _).1 (by decide), ((read_word _).2.1 _).1 (by decide)⟩
  apply (read_word _).2.2 ["-2147483648", " 65526\t"]
  · refine .cons ⟨"", "", rfl, ?_, ?_⟩ (.cons ⟨" ", "\t", rfl, ?_, ?_⟩ .nil)
    · decide
    · decide
    · decide
    · decide
  · decide
  · rfl

end SymbolAutomata.Word
