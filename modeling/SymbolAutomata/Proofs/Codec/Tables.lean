/-
  SymbolAutomata/Proofs/Codec/Tables.lean
  =======================================
  **The codec as a pair of tables.**

  A codec can be built by passing over the codepoints in increasing order and handing the
  next symbol to each that is not reserved (`Tables.extend`).  After `n` codepoints the
  tables list the places of the first `rank n` symbols and the symbols of the first `n`
  codepoints (`Tables.Filled`): each step keeps this (`Filled.extend`), so a whole pass ends
  with it (`filled_upTo`), and the closed forms of the codec are entries of its tables
  (`codepoint?_eq_tables`, `symbol?_eq_tables`).

  In the same way the span of a range of codepoints is what two searches find, one from
  each end of the range (`symbolSpan_eq_searches`).
-/
import Mathlib.Data.List.Range
import SymbolAutomata.Proofs.Codec

namespace SymbolAutomata

namespace Codec

theorem isReserved_eq_true_iff {c : Codepoint} : isReserved c = true ↔ c ∈ reserved := by
  unfold isReserved
  rw [List.contains_iff_mem]

theorem isReserved_eq_false_iff {c : Codepoint} : isReserved c = false ↔ c ∉ reserved := by
  rw [← isReserved_eq_true_iff, Bool.not_eq_true]

theorem size_eq : size = 65527 := by decide

/-! ### Passing over the codepoints -/

/-- **Tables under construction**: the codepoints of the symbols handed out so far, and the symbols
    of the codepoints passed so far. -/
structure Tables where
  codepoints : List Codepoint
  symbols : List (Option Symbol)

namespace Tables

/-- Pass one more codepoint. -/
def extend (t : Tables) (c : Codepoint) : Tables :=
  if isReserved c then ⟨t.codepoints, t.symbols ++ [none]⟩
  else ⟨t.codepoints ++ [c], t.symbols ++ [some (t.codepoints.length : Int)]⟩

/-- The tables after the codepoints below `n`. -/
def upTo (n : Nat) : Tables := (List.range n).foldl extend ⟨[], []⟩

/-- What the tables hold once the codepoints below `n` are passed. -/
structure Filled (n : Nat) (t : Tables) : Prop where
  codepoints : t.codepoints = (List.range (rank n)).map place
  symbols : t.symbols = (List.range n).map fun c =>
    if isReserved c then none else some (rank c : Int)

theorem Filled.extend {n : Nat} {t : Tables} (ht : t.Filled n) : (t.extend n).Filled (n + 1) := by
  have hrank := rank_succ n
  by_cases hn : n ∈ reserved
  · have hres : isReserved n = true := isReserved_eq_true_iff.2 hn
    rw [if_pos hn] at hrank
    rw [Tables.extend, if_pos hres]
    constructor
    · rw [hrank, ht.codepoints]
    · rw [List.range_succ, List.map_append, ht.symbols, List.map_singleton, if_pos hres]
  · have hfree : ¬ isReserved n = true := mt isReserved_eq_true_iff.1 hn
    have hlength : t.codepoints.length = rank n := by
      rw [ht.codepoints, List.length_map, List.length_range]
    rw [if_neg hn] at hrank
    rw [Tables.extend, if_neg hfree]
    constructor
    · rw [hrank, List.range_succ, List.map_append, ht.codepoints, List.map_singleton,
        place_rank hn]
    · rw [List.range_succ, List.map_append, ht.symbols, List.map_singleton, if_neg hfree, hlength]

/-- **A pass fills the tables**, however far it goes. -/
theorem filled_upTo (n : Nat) : (upTo n).Filled n := by
  induction n with
  | zero => exact ⟨rfl, rfl⟩
  | succ n ih =>
    have hstep : upTo (n + 1) = (upTo n).extend n := by
      rw [upTo, List.range_succ, List.foldl_append]
      rfl
    rw [hstep]
    exact ih.extend

end Tables

/-- The tables after all codepoints. -/
def tables : Tables := Tables.upTo (maxCodepoint + 1)

theorem codepoints_tables : tables.codepoints = (List.range size).map place := by
  rw [tables, (Tables.filled_upTo _).codepoints, rank_top, size_eq]

theorem getElem?_map_range {α : Type} (f : Nat → α) (n i : Nat) :
    ((List.range n).map f)[i]? = if i < n then some (f i) else none := by
  rw [List.getElem?_map]
  split
  · next h => rw [List.getElem?_range h, Option.map_some]
  · next h =>
    rw [List.getElem?_eq_none (List.length_range.trans_le (Nat.not_lt.1 h)), Option.map_none]

theorem codepoint?_eq_tables (s : Symbol) :
    codepoint? s = if 0 ≤ s then tables.codepoints[s.toNat]? else none := by
  have hsymbol : (0 ≤ s ∧ s ≤ maxSymbol) ↔ 0 ≤ s ∧ s.toNat < size := by
    unfold maxSymbol
    simp only [Symbol] at *
    omega
  unfold codepoint?
  rw [codepoints_tables, getElem?_map_range, ← ite_and]
  exact if_congr hsymbol rfl rfl

theorem symbol?_of_reserved {c : Nat} (hc : c ∈ reserved) : symbol? c = none :=
  if_neg fun h => isReserved_eq_false_iff.1 h.2 hc

theorem symbol?_of_not_reserved {c : Nat} (hle : c ≤ maxCodepoint) (hc : c ∉ reserved) :
    symbol? c = some (rank c : Int) := if_pos ⟨hle, isReserved_eq_false_iff.2 hc⟩

theorem symbol?_eq_tables (c : Codepoint) : symbol? c = tables.symbols[c]?.join := by
  rw [tables, (Tables.filled_upTo _).symbols, getElem?_map_range]
  by_cases hle : c ≤ maxCodepoint
  · rw [if_pos (Nat.lt_succ_of_le hle), Option.join_some]
    by_cases hc : c ∈ reserved
    · rw [symbol?_of_reserved hc, if_pos (isReserved_eq_true_iff.2 hc)]
    · rw [symbol?_of_not_reserved hle hc, if_neg (mt isReserved_eq_true_iff.1 hc)]
  · rw [if_neg fun h => hle (Nat.le_of_lt_succ h)]
    exact if_neg fun h => hle h.1

/-! ### Searching a range -/

/-- The first symbol of `n` codepoints is the rank of their first, reserved or not. -/
theorem findSome?_symbol? {lo n : Nat} (h : lo + n ≤ maxCodepoint + 1) :
    (List.range' lo n).findSome? symbol? =
      if rank lo < rank (lo + n) then some (rank lo : Int) else none := by
  induction n generalizing lo with
  | zero =>
    rw [Nat.add_zero, if_neg (Nat.lt_irrefl _)]
    rfl
  | succ n ih =>
    have hle : lo ≤ maxCodepoint := by omega
    have hend : lo + 1 + n = lo + (n + 1) := by omega
    have hih := @ih (lo + 1) (hend.trans_le h)
    rw [hend] at hih
    rw [List.range'_succ]
    by_cases hlo : lo ∈ reserved
    · have hrank := rank_succ lo
      rw [if_pos hlo] at hrank
      rw [List.findSome?_cons_of_isNone (by rw [symbol?_of_reserved hlo]; rfl), hih, hrank]
    · have hsymbol := symbol?_of_not_reserved hle hlo
      have hlt : rank lo < rank (lo + (n + 1)) := rank_lt hlo (Nat.lt_add_of_pos_right n.succ_pos)
      rw [List.findSome?_cons_of_isSome (by rw [hsymbol]; rfl), hsymbol, if_pos hlt]

/-- The last symbol of `n` codepoints is the one before the rank of the codepoint behind them. -/
theorem findSome?_symbol?_reverse {lo n : Nat} (h : lo + n ≤ maxCodepoint + 1) :
    (List.range' lo n).reverse.findSome? symbol? =
      if rank lo < rank (lo + n) then some ((rank (lo + n) : Int) - 1) else none := by
  induction n with
  | zero =>
    rw [Nat.add_zero, if_neg (Nat.lt_irrefl _)]
    rfl
  | succ n ih =>
    have hle : lo + n ≤ maxCodepoint := Nat.le_of_succ_le_succ h
    have hrank := rank_succ (lo + n)
    rw [List.range'_1_concat, List.reverse_append, List.reverse_singleton, List.singleton_append,
      ← Nat.add_assoc]
    by_cases hlast : lo + n ∈ reserved
    · rw [if_pos hlast] at hrank
      rw [List.findSome?_cons_of_isNone (by rw [symbol?_of_reserved hlast]; rfl),
        ih (Nat.le_succ_of_le hle), hrank]
    · have hsymbol := symbol?_of_not_reserved hle hlast
      have hfirst : rank lo ≤ rank (lo + n) := rank_mono (Nat.le_add_right _ _)
      rw [if_neg hlast] at hrank
      rw [List.findSome?_cons_of_isSome (by rw [hsymbol]; rfl), hsymbol, hrank,
        if_pos (Nat.lt_succ_of_le hfirst), Int.natCast_succ, Int.add_sub_cancel]

/-- **A span is found by two searches**, one from each end of the range. -/
theorem symbolSpan_eq_searches (lo hi : Codepoint) :
    symbolSpan lo hi =
      let range := List.range' lo (Nat.min hi maxCodepoint + 1 - lo)
      (range.findSome? symbol?).bind fun first =>
        (range.reverse.findSome? symbol?).map fun last => (first, last) := by
  unfold symbolSpan
  by_cases hle : lo ≤ Nat.min hi maxCodepoint + 1
  · have hend : lo + (Nat.min hi maxCodepoint + 1 - lo) = Nat.min hi maxCodepoint + 1 :=
      Nat.add_sub_of_le hle
    have hmax : lo + (Nat.min hi maxCodepoint + 1 - lo) ≤ maxCodepoint + 1 :=
      hend.trans_le (Nat.succ_le_succ (Nat.min_le_right _ _))
    simp only [findSome?_symbol? hmax, findSome?_symbol?_reverse hmax, hend]
    by_cases hlt : rank lo < rank (Nat.min hi maxCodepoint + 1)
    · simp only [if_pos hlt, Option.bind_some, Option.map_some]
    · simp only [if_neg hlt, Option.bind_none]
  · -- an empty range: nothing is searched
    have hrank : rank (Nat.min hi maxCodepoint + 1) ≤ rank lo := rank_mono (Nat.le_of_not_le hle)
    have hnone : Nat.min hi maxCodepoint + 1 - lo = 0 :=
      Nat.sub_eq_zero_of_le (Nat.le_of_not_le hle)
    simp only [if_neg (Nat.not_lt.2 hrank), hnone]
    rfl

/-! ### An order isomorphism -/

theorem exists_codepoint_iff {s : Symbol} : (∃ c, codepoint s = .ok c) ↔ 0 ≤ s ∧ s ≤ maxSymbol := by
  simp only [codepoint_eq_ok_iff, exists_and_left, exists_eq', and_true]
  rfl

theorem symbol_eq_ok_iff {c : Codepoint} {s : Symbol} : symbol c = .ok s ↔ symbol? c = some s := by
  unfold symbol
  cases symbol? c <;> simp

theorem symbol?_eq_some_iff {c : Codepoint} {s : Symbol} :
    symbol? c = some s ↔ (c ≤ maxCodepoint ∧ c ∉ reserved) ∧ (rank c : Int) = s := by
  rw [← isReserved_eq_false_iff]
  unfold symbol?
  split
  · next h => simp [h]
  · next h => simp [h]

theorem exists_symbol_iff {c : Codepoint} :
    (∃ s, symbol c = .ok s) ↔ c ≤ maxCodepoint ∧ isReserved c = false := by
  rw [isReserved_eq_false_iff]
  simp only [symbol_eq_ok_iff, symbol?_eq_some_iff, exists_and_left, exists_eq', and_true]

/-- **The two directions undo each other.** -/
theorem codepoint_eq_ok_iff_symbol {s : Symbol} {c : Codepoint} :
    codepoint s = .ok c ↔ symbol c = .ok s := by
  rw [codepoint_eq_ok_iff, symbol_eq_ok_iff, symbol?_eq_some_iff]
  constructor
  · rintro ⟨hs, rfl⟩
    exact ⟨⟨code_le_max hs, code_not_mem s⟩, by rw [code, rank_place, Int.toNat_of_nonneg hs.1]⟩
  · rintro ⟨⟨hle, hfree⟩, rfl⟩
    exact ⟨isSymbol_rank hle hfree, code_rank hfree⟩

theorem lt_iff_of_codepoint_eq_ok {s t : Symbol} {c d : Codepoint} (hs : codepoint s = .ok c)
    (ht : codepoint t = .ok d) : s < t ↔ c < d := by
  obtain ⟨hsymbol, rfl⟩ := codepoint_eq_ok_iff.1 hs
  obtain ⟨htsymbol, rfl⟩ := codepoint_eq_ok_iff.1 ht
  exact (code_lt_iff hsymbol htsymbol).symm

/-! ### Spans -/

theorem le_of_symbolSpan {lo hi : Codepoint} {a b : Symbol} (h : symbolSpan lo hi = some (a, b)) :
    a ≤ b := by
  unfold symbolSpan at h
  simp only [Symbol] at *
  split at h
  · next hlt =>
    obtain ⟨rfl, rfl⟩ := Prod.mk.inj (Option.some.inj h)
    exact Int.le_sub_one_of_lt (Int.ofNat_lt.2 hlt)
  · cases h

/-- **A range has a span** as soon as it holds one codepoint that is not reserved. -/
theorem exists_symbolSpan_iff {lo hi : Codepoint} :
    (∃ span, symbolSpan lo hi = some span) ↔
      ∃ c, lo ≤ c ∧ c ≤ hi ∧ c ≤ maxCodepoint ∧ isReserved c = false := by
  simp only [isReserved_eq_false_iff]
  constructor
  · rintro ⟨⟨a, b⟩, h⟩
    obtain ⟨hsymbol, hlo, hhi⟩ := mem_symbolSpan_iff.1 ⟨a, b, h, Int.le_refl a, le_of_symbolSpan h⟩
    exact ⟨code a, hlo, hhi, code_le_max hsymbol, code_not_mem a⟩
  · rintro ⟨c, hlo, hhi, hmax, hfree⟩
    have hcode := code_rank hfree
    obtain ⟨a, b, h, -, -⟩ := mem_symbolSpan_iff.2
      ⟨isSymbol_rank hmax hfree, hcode.symm ▸ hlo, hcode.symm ▸ hhi⟩
    exact ⟨(a, b), h⟩

theorem between_symbolSpan_iff {lo hi : Codepoint} {a b s : Symbol}
    (h : symbolSpan lo hi = some (a, b)) :
    a ≤ s ∧ s ≤ b ↔ ∃ c, codepoint s = .ok c ∧ lo ≤ c ∧ c ≤ hi := by
  have hspan : (a ≤ s ∧ s ≤ b) ↔ IsSymbol s ∧ lo ≤ code s ∧ code s ≤ hi := by
    rw [← mem_symbolSpan_iff, h]
    simp
  rw [hspan]
  constructor
  · rintro ⟨hs, hrange⟩
    exact ⟨_, codepoint_of_isSymbol hs, hrange⟩
  · rintro ⟨c, hc, hrange⟩
    obtain ⟨hs, rfl⟩ := codepoint_eq_ok_iff.1 hc
    exact ⟨hs, hrange⟩

/-- **The codec is an order isomorphism and its spans are exact.**  Just the symbols have a
    codepoint, just the codepoints in range that are not reserved have a symbol, the two directions
    undo each other and both are increasing.  A range of codepoints has a span if it holds the
    codepoint of a symbol, and then the symbols of the span are those whose codepoints it holds. -/
theorem order_isomorphism :
    (∀ s, (∃ c, codepoint s = .ok c) ↔ 0 ≤ s ∧ s ≤ maxSymbol) ∧
      (∀ c, (∃ s, symbol c = .ok s) ↔ c ≤ maxCodepoint ∧ isReserved c = false) ∧
      (∀ s c, codepoint s = .ok c ↔ symbol c = .ok s) ∧
      (∀ s t c d, codepoint s = .ok c → codepoint t = .ok d → (s < t ↔ c < d)) ∧
      (∀ c d s t, symbol c = .ok s → symbol d = .ok t → (c < d ↔ s < t)) ∧
      (∀ lo hi, (∃ span, symbolSpan lo hi = some span) ↔
        ∃ c, lo ≤ c ∧ c ≤ hi ∧ c ≤ maxCodepoint ∧ isReserved c = false) ∧
      ∀ lo hi a b, symbolSpan lo hi = some (a, b) →
        ∀ s, a ≤ s ∧ s ≤ b ↔ ∃ c, codepoint s = .ok c ∧ lo ≤ c ∧ c ≤ hi :=
  ⟨fun _ => exists_codepoint_iff, fun _ => exists_symbol_iff,
    fun _ _ => codepoint_eq_ok_iff_symbol, fun _ _ _ _ => lt_iff_of_codepoint_eq_ok,
    fun _ _ _ _ hs ht => (lt_iff_of_codepoint_eq_ok (codepoint_eq_ok_iff_symbol.2 hs)
      (codepoint_eq_ok_iff_symbol.2 ht)).symm,
    fun _ _ => exists_symbolSpan_iff, fun _ _ _ _ h _ => between_symbolSpan_iff h⟩

/-- Across the first reserved codepoints, and at the ends of a range that are reserved
    themselves. -/
theorem order_isomorphism_reserved :
    codepoint 33 = .ok 33 ∧ codepoint 34 = .ok 35 ∧ ((33 : Symbol) < 34 ↔ (33 : Codepoint) < 35) ∧
      symbol 42 = .ok 39 ∧ ((35 : Codepoint) < 42 ↔ (34 : Symbol) < 39) ∧
      symbolSpan 34 41 = some (34, 38) ∧ symbolSpan 40 41 = none ∧ symbolSpan 10 5 = none ∧
      ∀ s, 34 ≤ s ∧ s ≤ 38 ↔ ∃ c, codepoint s = .ok c ∧ 34 ≤ c ∧ c ≤ 41 := by
  obtain ⟨-, -, hinverse, hup, hdown, -, hspan⟩ := order_isomorphism
  have hbelow : codepoint 33 = .ok 33 := by decide
  have habove : codepoint 34 = .ok 35 := by decide
  have hbehind : symbol 42 = .ok 39 := by decide
  have hrange : symbolSpan 34 41 = some (34, 38) := by decide
  exact ⟨hbelow, habove, hup 33 34 33 35 hbelow habove, hbehind,
    hdown 35 42 34 39 ((hinverse 34 35).1 habove) hbehind, hrange, by decide, by decide,
    hspan 34 41 34 38 hrange⟩

end Codec

end SymbolAutomata
