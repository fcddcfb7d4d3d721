/-
  SymbolAutomata/Proofs/Pattern/Shorthand.lean
  ============================================
  **The shorthand is read token by token.**

  `Token` lists what the shorthand is made of, together with what each token expands to, and
  `Expands` puts tokens one after the other.  A token ends where its text says, whatever
  follows it: the reader goes through all of it and is between two tokens again
  (`expandFrom_token`), so it does the same with a sequence of tokens (`expandFrom_expands`).
  Conversely what the reader accepts starts with a token (`exists_token`), since each mode
  knows what it still has to see, and so is a sequence of tokens (`expands_of_expandFrom`).
-/
import SymbolAutomata.Pattern.Shorthand
import SymbolAutomata.Proofs.Codec
import SymbolAutomata.Proofs.Text.Numeral

namespace SymbolAutomata.Pattern

open Text

/-! ### Tokens -/

/-- A codepoint as an escape, with four digits in base 16. -/
def escapeOf (c : Codepoint) : List Char :=
  ['\\', 'x', '\x7b', hexDigit (c / 4096), hexDigit (c / 256 % 16), hexDigit (c / 16 % 16),
    hexDigit (c % 16), '\x7d']

/-- **The tokens of the shorthand**, each with its expansion. -/
inductive Token : List Char → List Char → Prop where
  /-- A digit stands for the symbol of its value. -/
  | digit {d : Nat} (hd : d < 10) : Token [d.digitChar] (escapeOf d)
  /-- The numeral of a symbol in angle brackets; the only sign is a minus. -/
  | symbol {body : List Char} {s : Symbol} {c : Codepoint} (hbody : Numeral body s)
    (hsign : '+' ∉ body) (hcodepoint : Codec.codepoint s = .ok c)
    (hwhole : isSurrogate c = false) : Token ('<' :: (body ++ ['>'])) (escapeOf c)
  /-- Repetition bounds reach to the first closing brace. -/
  | bounds {inner : List Char} (hinner : '\x7d' ∉ inner) :
    Token ('\x7b' :: (inner ++ ['\x7d'])) ('\x7b' :: (inner ++ ['\x7d']))
  /-- A backslash takes any character with it. -/
  | escape (c : Char) : Token ['\\', c] ['\\', c]
  | other {c : Char} (hdigit : c.isDigit = false) (hopen : c ≠ '<') (hbrace : c ≠ '\x7b')
    (hbackslash : c ≠ '\\') : Token [c] [c]

/-- **Texts made of tokens**, with the expansions of these one after the other. -/
inductive Expands : List Char → List Char → Prop where
  | nil : Expands [] []
  | cons {t e text out : List Char} (ht : Token t e) (hrest : Expands text out) :
    Expands (t ++ text) (e ++ out)

theorem Token.ne_nil {t e : List Char} (h : Token t e) : t ≠ [] := by
  cases h <;> exact List.cons_ne_nil _ _

/-! ### Symbols -/

theorem spell_of_codepoint {s : Symbol} {c : Codepoint} (hc : Codec.codepoint s = .ok c) :
    spell s =
      if isSurrogate c then .error (.pattern (.surrogate s c)) else .ok (escapeOf c) := by
  obtain ⟨hs, hcode⟩ := Codec.codepoint_eq_ok_iff.1 hc
  have hmax : c < 65536 := hcode ▸ Nat.lt_succ_of_le (Codec.code_le_max hs)
  have hescape : ['\\', 'x', '\x7b'] ++ (hexUpper 4 c).toList ++ ['\x7d'] = escapeOf c := by
    rw [hexUpper_four hmax]
    rfl
  rw [spell, hc, ← hescape]
  rfl

/-- **A symbol is spelled** unless its codepoint is no character. -/
theorem spell_eq_ok_iff {s : Symbol} {e : List Char} :
    spell s = .ok e ↔ ∃ c, Codec.codepoint s = .ok c ∧ isSurrogate c = false ∧ e = escapeOf c := by
  constructor
  · intro h
    obtain ⟨c, hc, -⟩ := exists_of_bind_eq_ok h
    rw [spell_of_codepoint hc] at h
    cases hwhole : isSurrogate c with
    | true => simp [hwhole] at h
    | false => exact ⟨c, hc, hwhole, by simpa [hwhole, eq_comm] using h⟩
  · rintro ⟨c, hc, hwhole, rfl⟩
    rw [spell_of_codepoint hc, hwhole]
    rfl

theorem spell_digit {d : Nat} (hd : d < 10) : spell d = .ok (escapeOf d) := by
  have hcodepoint : Codec.codepoint d = .ok d ∧ isSurrogate d = false := by
    revert d
    decide
  exact spell_eq_ok_iff.2 ⟨d, hcodepoint.1, hcodepoint.2, rfl⟩

/-- The text between angle brackets is spelled just if it is the numeral of such a symbol. -/
theorem spellDigits_eq_ok_iff {body e : List Char} :
    spellDigits body = .ok e ↔ ∃ s c, Numeral body s ∧ Codec.codepoint s = .ok c ∧
      isSurrogate c = false ∧ e = escapeOf c := by
  unfold spellDigits
  constructor
  · intro h
    cases hs : readSymbol body with
    | error fault =>
      rw [hs] at h
      cases h
    | ok s =>
      rw [hs] at h
      obtain ⟨c, hc⟩ := spell_eq_ok_iff.1 h
      exact ⟨s, c, (readSymbol_eq_ok_iff.1 hs).1, hc⟩
  · rintro ⟨s, c, hbody, hc⟩
    have hsymbol := (Codec.codepoint_eq_ok_iff.1 hc.1).1
    have hmax : s ≤ 65526 := Codec.maxSymbol_eq ▸ hsymbol.2
    have hbounds : least32 ≤ s ∧ s ≤ greatest32 :=
      ⟨Int.le_trans (by decide) hsymbol.1, Int.le_trans hmax (by decide)⟩
    rw [readSymbol_eq_ok_iff.2 ⟨hbody, hbounds⟩]
    exact spell_eq_ok_iff.2 ⟨c, hc⟩

/-! ### A token is read to its end -/

section

variable (pattern : String)

theorem expandFrom_other {c : Char} (hdigit : c.isDigit = false) (hopen : c ≠ '<')
    (rest : List Char) : expandFrom pattern .plain (c :: rest) = (c :: ·) <$> expandFrom pattern
      (if c = '\x7b' then .bounds else if c = '\\' then .escape else .plain) rest := by
  rw [expandFrom, digit?_eq_none_iff.2 hdigit]
  simp [hopen]

theorem expandFrom_digit {d : Nat} (hd : d < 10) (rest : List Char) :
    expandFrom pattern .plain (d.digitChar :: rest) =
      (escapeOf d ++ ·) <$> expandFrom pattern .plain rest := by
  have hread : digit? d.digitChar = some d := by
    revert d
    decide
  rw [expandFrom, hread]
  simp only [spell_digit hd]
  cases expandFrom pattern .plain rest <;> rfl

theorem expandFrom_symbol {digits more e : List Char}
    (hspell : spellDigits (digits ++ more) = .ok e) (hsign : '+' ∉ more) (rest : List Char) :
    expandFrom pattern (.symbol digits) (more ++ '>' :: rest) =
      (e ++ ·) <$> expandFrom pattern .plain rest := by
  induction more generalizing digits with
  | nil =>
    rw [List.append_nil] at hspell
    rw [List.nil_append, expandFrom, if_pos rfl, hspell]
    cases expandFrom pattern .plain rest <;> rfl
  | cons c more ih =>
    obtain ⟨hplus, hsign⟩ := not_or.1 (mt List.mem_cons.2 hsign)
    obtain ⟨s, -, hbody, -⟩ := spellDigits_eq_ok_iff.1 hspell
    have hc : c ≠ '>' ∧ continuesSymbol digits c = true := by
      rcases hbody.isDigit_or_sign with hdigit | ⟨rfl, rfl | rfl⟩
      · refine ⟨?_, by simp [continuesSymbol, digit?_eq, hdigit]⟩
        rintro rfl
        cases hdigit
      · exact absurd rfl hplus
      · exact ⟨by decide, rfl⟩
    rw [List.cons_append, expandFrom, if_neg hc.1, if_pos hc.2, ih _ hsign]
    rw [List.append_assoc]
    exact hspell

theorem expandFrom_bounds {inner : List Char} (hinner : '\x7d' ∉ inner) (rest : List Char) :
    expandFrom pattern .bounds (inner ++ '\x7d' :: rest) =
      ((inner ++ ['\x7d']) ++ ·) <$> expandFrom pattern .plain rest := by
  induction inner with
  | nil =>
    rw [List.nil_append, expandFrom, if_pos rfl]
    simp
  | cons c inner ih =>
    obtain ⟨hc, hinner⟩ := not_or.1 (mt List.mem_cons.2 hinner)
    rw [List.cons_append, expandFrom, if_neg (Ne.symm hc), ih hinner]
    simp

/-- **A token is read to its end**, whatever follows. -/
theorem expandFrom_token {t e : List Char} (ht : Token t e) (rest : List Char) :
    expandFrom pattern .plain (t ++ rest) = (e ++ ·) <$> expandFrom pattern .plain rest := by
  cases ht with
  | digit hd => exact expandFrom_digit pattern hd rest
  | @symbol body s c hbody hsign hcodepoint hwhole =>
    have hspell : spellDigits ([] ++ body) = .ok (escapeOf c) :=
      spellDigits_eq_ok_iff.2 ⟨s, c, hbody, hcodepoint, hwhole, rfl⟩
    have hclosed := expandFrom_symbol pattern hspell hsign rest
    rw [List.cons_append, List.append_assoc, List.singleton_append]
    exact hclosed
  | @bounds inner hinner =>
    have hclosed := expandFrom_bounds pattern hinner rest
    rw [List.cons_append, List.append_assoc, List.singleton_append,
      expandFrom_other pattern (by decide) (by decide), if_pos rfl, hclosed]
    simp
  | escape c =>
    rw [List.cons_append, expandFrom_other pattern (by decide) (by decide)]
    simp [expandFrom]
  | other hdigit hopen hbrace hbackslash =>
    rw [List.singleton_append, expandFrom_other pattern hdigit hopen, if_neg hbrace,
      if_neg hbackslash]
    rfl

/-- **So is a sequence of tokens.** -/
theorem expandFrom_expands {text out : List Char} (h : Expands text out) (rest : List Char) :
    expandFrom pattern .plain (text ++ rest) = (out ++ ·) <$> expandFrom pattern .plain rest := by
  induction h with
  | nil => simp
  | cons ht _ ih =>
    rw [List.append_assoc, expandFrom_token pattern ht, ih]
    simp

/-! ### What is read starts with a token -/

theorem exists_symbol_end {digits text out : List Char}
    (h : expandFrom pattern (.symbol digits) text = .ok out) :
    ∃ more rest e, text = more ++ '>' :: rest ∧ '+' ∉ more ∧
      spellDigits (digits ++ more) = .ok e := by
  induction text generalizing digits with
  | nil => cases h
  | cons c text ih =>
    rw [expandFrom] at h
    by_cases hclose : c = '>'
    · subst hclose
      rw [if_pos rfl] at h
      obtain ⟨e, he, -⟩ := exists_of_bind_eq_ok h
      exact ⟨[], text, e, rfl, List.not_mem_nil, by rwa [List.append_nil]⟩
    · rw [if_neg hclose] at h
      by_cases hcontinues : continuesSymbol digits c = true
      · rw [if_pos hcontinues] at h
        obtain ⟨more, rest, e, rfl, hsign, he⟩ := ih h
        refine ⟨c :: more, rest, e, rfl, ?_, by rwa [List.append_assoc] at he⟩
        rw [List.mem_cons, not_or]
        refine ⟨?_, hsign⟩
        rintro rfl
        simp [continuesSymbol, digit?_eq] at hcontinues
      · rw [if_neg hcontinues] at h
        cases h

theorem exists_bounds_end {text out : List Char} (h : expandFrom pattern .bounds text = .ok out) :
    ∃ inner rest, text = inner ++ '\x7d' :: rest ∧ '\x7d' ∉ inner := by
  induction text generalizing out with
  | nil => cases h
  | cons c text ih =>
    rw [expandFrom] at h
    by_cases hclose : c = '\x7d'
    · subst hclose
      exact ⟨[], text, rfl, List.not_mem_nil⟩
    · rw [if_neg hclose] at h
      obtain ⟨_, hrest, -⟩ := exists_of_bind_eq_ok h
      obtain ⟨inner, rest, rfl, hinner⟩ := ih hrest
      refine ⟨c :: inner, rest, rfl, ?_⟩
      rw [List.mem_cons, not_or]
      exact ⟨Ne.symm hclose, hinner⟩

/-- **What is accepted starts with a token.** -/
theorem exists_token {c : Char} {text out : List Char}
    (h : expandFrom pattern .plain (c :: text) = .ok out) :
    ∃ t e rest, Token t e ∧ c :: text = t ++ rest := by
  cases hdigit : c.isDigit with
  | true =>
    obtain ⟨d, hd, rfl⟩ := exists_digitChar hdigit
    exact ⟨_, _, text, .digit hd, rfl⟩
  | false =>
    by_cases hopen : c = '<'
    · subst hopen
      obtain ⟨body, rest, e, rfl, hsign, he⟩ := exists_symbol_end pattern h
      obtain ⟨s, c, hbody, hcodepoint, hwhole, -⟩ := spellDigits_eq_ok_iff.1 he
      exact ⟨_, _, rest, .symbol hbody hsign hcodepoint hwhole, by simp⟩
    · rw [expandFrom_other pattern hdigit hopen] at h
      obtain ⟨o, ho, -⟩ := exists_of_map_eq_ok h
      by_cases hbrace : c = '\x7b'
      · subst hbrace
        obtain ⟨inner, rest, rfl, hinner⟩ := exists_bounds_end pattern ho
        exact ⟨_, _, rest, .bounds hinner, by simp⟩
      · by_cases hbackslash : c = '\\'
        · subst hbackslash
          cases text with
          | nil => cases ho
          | cons d text => exact ⟨_, _, text, .escape d, rfl⟩
        · exact ⟨_, _, text, .other hdigit hopen hbrace hbackslash, rfl⟩

/-- **What is accepted is a sequence of tokens.** -/
theorem expands_of_expandFrom {text out : List Char}
    (h : expandFrom pattern .plain text = .ok out) : Expands text out := by
  -- tokens are not empty, so what follows the first one is shorter
  induction hlength : text.length using Nat.strongRecOn generalizing text out with
  | ind n ih =>
    cases text with
    | nil =>
      cases h
      exact .nil
    | cons c text =>
      obtain ⟨t, e, rest, ht, htext⟩ := exists_token pattern h
      rw [htext, expandFrom_token pattern ht] at h
      obtain ⟨o, ho, rfl⟩ := exists_of_map_eq_ok h
      have hshorter : rest.length < n := by
        have hpos := List.length_pos_iff.2 ht.ne_nil
        rw [← hlength, htext, List.length_append]
        omega
      rw [htext]
      exact .cons ht (ih _ hshorter ho rfl)

/-- The quoted pattern only matters for failures. -/
theorem expandFrom_eq_ok_iff {text out : List Char} :
    expandFrom pattern .plain text = .ok out ↔ Expands text out := by
  refine ⟨expands_of_expandFrom pattern, fun h => ?_⟩
  have hread := expandFrom_expands pattern h []
  rw [List.append_nil] at hread
  rw [hread]
  simp [expandFrom]

end

/-- **Tokens do not reach over a border of tokens.** -/
theorem Expands.append_iff {text e more out : List Char} (h : Expands text e) :
    Expands (text ++ more) out ↔ ∃ o, Expands more o ∧ e ++ o = out := by
  simp only [← expandFrom_eq_ok_iff ""]
  rw [expandFrom_expands "" h]
  constructor
  · exact exists_of_map_eq_ok
  · rintro ⟨o, ho, rfl⟩
    rw [ho]
    rfl

/-! ### The expansion of a pattern -/

theorem expand_eq_ok_iff {p out : String} :
    expand p = .ok out ↔ Expands p.toList out.toList := by
  rw [← expandFrom_eq_ok_iff p]
  constructor
  · intro h
    obtain ⟨o, ho, hout⟩ := exists_of_bind_eq_ok h
    cases hout
    rw [ho, String.toList_ofList]
  · intro h
    rw [expand, h]
    exact congrArg Except.ok String.ofList_toList

theorem expand_append_iff {p out : String} (h : expand p = .ok out) (q o : String) :
    expand (p ++ q) = .ok o ↔ ∃ o', expand q = .ok o' ∧ out ++ o' = o := by
  simp only [expand_eq_ok_iff, ← String.toList_inj, String.toList_append]
  rw [(expand_eq_ok_iff.1 h).append_iff]
  constructor
  · rintro ⟨o', ho'⟩
    exact ⟨String.ofList o', by rwa [String.toList_ofList]⟩
  · rintro ⟨o', ho'⟩
    exact ⟨o'.toList, ho'⟩

/-- **The shorthand is expanded token by token.**  A pattern has an expansion just if it is a
    sequence of tokens, and the expansions of these make it up.  So a pattern that has one can be
    split off in front of any other: the rest is expanded as it is by itself. -/
theorem expand_tokens :
    (∀ p out, expand p = .ok out ↔ Expands p.toList out.toList) ∧
      ∀ p out, expand p = .ok out → ∀ q,
        ((∃ o, expand (p ++ q) = .ok o) ↔ ∃ o, expand q = .ok o) ∧
          ∀ o, expand q = .ok o → expand (p ++ q) = .ok (out ++ o) := by
  refine ⟨fun _ _ => expand_eq_ok_iff, fun p out h q => ⟨⟨?_, ?_⟩, ?_⟩⟩
  · rintro ⟨o, ho⟩
    obtain ⟨o', ho', -⟩ := (expand_append_iff h q o).1 ho
    exact ⟨o', ho'⟩
  · rintro ⟨o, ho⟩
    exact ⟨out ++ o, (expand_append_iff h q _).2 ⟨o, ho, rfl⟩⟩
  · intro o ho
    exact (expand_append_iff h q _).2 ⟨o, ho, rfl⟩

/-- All kinds of tokens side by side, and a text that breaks off inside one. -/
theorem expand_tokens_mixed :
    expand "7<34>\x7b2,3\x7d" = .ok "\\x\x7b0007\x7d\\x\x7b0023\x7d\x7b2,3\x7d" ∧
      expand "<-0>\\<*>" = .ok "\\x\x7b0000\x7d\\<*>" ∧
      expand ("7<34>\x7b2,3\x7d" ++ "<-0>\\<*>") =
        .ok ("\\x\x7b0007\x7d\\x\x7b0023\x7d\x7b2,3\x7d" ++ "\\x\x7b0000\x7d\\<*>") ∧
      Expands "<-0>\\<*>".toList "\\x\x7b0000\x7d\\<*>".toList ∧
      ¬ ∃ o, expand ("7<34>\x7b2,3\x7d" ++ "<12") = .ok o := by
  obtain ⟨htokens, hsplit⟩ := expand_tokens
  have hfront : expand "7<34>\x7b2,3\x7d" =
    .ok "\\x\x7b0007\x7d\\x\x7b0023\x7d\x7b2,3\x7d" := rfl
  have hback : expand "<-0>\\<*>" = .ok "\\x\x7b0000\x7d\\<*>" := rfl
  have hopen : ¬ ∃ o, expand "<12" = .ok o := by
    have hfault : expand "<12" = .error (.pattern (.unclosedSymbol "<12")) := rfl
    rw [hfault]
    rintro ⟨o, ho⟩
    cases ho
  exact ⟨hfront, hback, (hsplit _ _ hfront _).2 _ hback, (htokens _ _).1 hback,
    mt (hsplit _ _ hfront _).1.1 hopen⟩

end SymbolAutomata.Pattern
