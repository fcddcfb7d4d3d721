/-
  SymbolAutomata/Proofs/Text/Numeral.lean
  =======================================
  **What numerals denote.**

  A numeral is an optional sign and at least one digit (`Numeral`), and its value is that of
  its digits in base ten with the sign.  Reading stops at the first digit that leaves the
  bounds.  As values only grow on the way, it does so just if the whole numeral is out of
  bounds (`readUp_eq_ok_iff`; `readDown_eq_ok_iff` mirrors it), so a text is read just if it is
  a numeral of a value within the bounds (`readInt_eq_ok_iff`).

  In base 16 a padded text is that of the number without its last digit, followed by that
  digit (`hexUpper_succ`).
-/
import SymbolAutomata.Text.Numeral

namespace SymbolAutomata.Text

/-! ### Digits -/

theorem digit?_eq (c : Char) :
    digit? c = if c.isDigit then some (c.toNat - '0'.toNat) else none := by
  have hdigit : c.isDigit = true ↔ '0' ≤ c ∧ c ≤ '9' := by
    rw [Char.isDigit, Bool.and_eq_true, decide_eq_true_iff, decide_eq_true_iff]
    rfl
  unfold digit?
  simp only [hdigit]

theorem digit?_eq_none_iff {c : Char} : digit? c = none ↔ c.isDigit = false := by
  rw [digit?_eq]
  cases c.isDigit <;> simp

theorem exists_digitChar {c : Char} (h : c.isDigit = true) : ∃ d < 10, d.digitChar = c := by
  have hbounds : 48 ≤ c.toNat ∧ c.toNat ≤ 57 := Char.isDigit_iff_toNat.1 h
  refine ⟨c.toNat - 48, by omega, Char.toNat_inj.1 ?_⟩
  rw [Nat.toNat_digitChar_of_lt_ten (by omega)]
  omega

/-- **Digits only.** -/
def Digits (text : List Char) : Prop := ∀ c ∈ text, c.isDigit = true

theorem Digits.not_mem {text : List Char} (h : Digits text) {c : Char}
    (hc : c.isDigit = false) : c ∉ text := fun hmem =>
  Bool.false_ne_true (hc.symm.trans (h c hmem))

theorem digits_cons {c : Char} {rest : List Char} :
    Digits (c :: rest) ↔ c.isDigit = true ∧ Digits rest := List.forall_mem_cons

/-- Further digits never lower a value. -/
theorem le_ofDigitChars (digits : List Char) (n : Nat) : n ≤ Nat.ofDigitChars 10 digits n := by
  rw [Nat.ofDigitChars_eq_ofDigitChars_zero]
  have hpow : 0 < 10 ^ digits.length := Nat.pow_pos (by decide)
  exact Nat.le_add_right_of_le (Nat.le_mul_of_pos_left n hpow)

/-- **Numerals and the integers they denote.** -/
inductive Numeral : List Char → Int → Prop where
  | plain {digits : List Char} (hne : digits ≠ []) (hdigits : Digits digits) :
    Numeral digits (Nat.ofDigitChars 10 digits 0)
  | plus {digits : List Char} (hne : digits ≠ []) (hdigits : Digits digits) :
    Numeral ('+' :: digits) (Nat.ofDigitChars 10 digits 0)
  | minus {digits : List Char} (hne : digits ≠ []) (hdigits : Digits digits) :
    Numeral ('-' :: digits) (-(Nat.ofDigitChars 10 digits 0 : Int))

theorem numeral_plus_iff {digits : List Char} {n : Int} :
    Numeral ('+' :: digits) n ↔
      digits ≠ [] ∧ Digits digits ∧ n = Nat.ofDigitChars 10 digits 0 := by
  constructor
  · intro h
    cases h with
    | plain _ hdigits => exact absurd (digits_cons.1 hdigits).1 (by decide)
    | plus hne hdigits => exact ⟨hne, hdigits, rfl⟩
  · rintro ⟨hne, hdigits, rfl⟩
    exact .plus hne hdigits

theorem numeral_minus_iff {digits : List Char} {n : Int} :
    Numeral ('-' :: digits) n ↔
      digits ≠ [] ∧ Digits digits ∧ n = -(Nat.ofDigitChars 10 digits 0 : Int) := by
  constructor
  · intro h
    cases h with
    | plain _ hdigits => exact absurd (digits_cons.1 hdigits).1 (by decide)
    | minus hne hdigits => exact ⟨hne, hdigits, rfl⟩
  · rintro ⟨hne, hdigits, rfl⟩
    exact .minus hne hdigits

theorem numeral_unsigned_iff {text : List Char} {n : Int} (hplus : ∀ rest, text ≠ '+' :: rest)
    (hminus : ∀ rest, text ≠ '-' :: rest) :
    Numeral text n ↔ text ≠ [] ∧ Digits text ∧ n = Nat.ofDigitChars 10 text 0 := by
  constructor
  · intro h
    cases h with
    | plain hne hdigits => exact ⟨hne, hdigits, rfl⟩
    | plus => exact absurd rfl (hplus _)
    | minus => exact absurd rfl (hminus _)
  · rintro ⟨hne, hdigits, rfl⟩
    exact .plain hne hdigits

theorem Numeral.ne_nil {text : List Char} {n : Int} (h : Numeral text n) : text ≠ [] := by
  cases h with
  | plain hne _ => exact hne
  | plus _ _ | minus _ _ => exact List.cons_ne_nil _ _

/-- **Only the first character of a numeral can be a sign.** -/
theorem Numeral.isDigit_or_sign {before after : List Char} {c : Char} {n : Int}
    (h : Numeral (before ++ c :: after) n) :
    c.isDigit = true ∨ before = [] ∧ (c = '+' ∨ c = '-') := by
  have hmem : c ∈ before ++ c :: after := List.mem_append_right _ (List.mem_cons_self ..)
  generalize htext : before ++ c :: after = text at h hmem
  cases h with
  | plain _ hdigits => exact .inl (hdigits c hmem)
  | plus _ hdigits | minus _ hdigits =>
    cases before with
    | nil =>
      obtain ⟨rfl, -⟩ := List.cons.inj htext
      simp
    | cons b before =>
      obtain ⟨-, rfl⟩ := List.cons.inj htext
      exact .inl (hdigits c (List.mem_append_right _ (List.mem_cons_self ..)))

theorem digits_toDigits (n : Nat) : Digits (Nat.toDigits 10 n) := fun _ hc =>
  Nat.isDigit_of_mem_toDigits (by decide) (by decide) hc

/-- **The decimal text of an integer** is a numeral of it. -/
theorem numeral_toString (n : Int) : Numeral (toString n).toList n := by
  rw [Int.toString_eq_repr, Int.repr_eq_if]
  split
  · next h =>
    have hplain := Numeral.plain Nat.toDigits_ne_nil (digits_toDigits n.toNat)
    rw [Nat.ofDigitChars_ten_toDigits, Int.toNat_of_nonneg h] at hplain
    rwa [Nat.toList_repr]
  · next h =>
    have hminus := Numeral.minus Nat.toDigits_ne_nil (digits_toDigits (-n).toNat)
    rw [Nat.ofDigitChars_ten_toDigits, Int.toNat_of_nonneg (by omega), Int.neg_neg] at hminus
    rwa [String.toList_append, Nat.toList_repr]

/-! ### Reading -/

/-- **Reading digits upwards** succeeds just if the final value is within the bound. -/
theorem readUp_eq_ok_iff {hi : Int} {n : Nat} {digits : List Char} {m : Int} (hn : (n : Int) ≤ hi) :
    readUp hi n digits = .ok m ↔
      Digits digits ∧ m = Nat.ofDigitChars 10 digits n ∧ m ≤ hi := by
  induction digits generalizing n with
  | nil =>
    simp only [readUp, Nat.ofDigitChars_nil, Except.ok.injEq]
    constructor
    · rintro rfl
      exact ⟨fun _ h => absurd h List.not_mem_nil, rfl, hn⟩
    · rintro ⟨-, rfl, -⟩
      rfl
  | cons c rest ih =>
    rw [readUp, digit?_eq, digits_cons, Nat.ofDigitChars_cons]
    cases hc : c.isDigit with
    | false => simp
    | true =>
      simp only [if_true, true_and]
      have hcast : (n : Int) * 10 + (c.toNat - '0'.toNat : Nat) =
          (10 * n + (c.toNat - '0'.toNat) : Nat) := by
        rw [Int.natCast_add, Int.natCast_mul, Int.mul_comm]
        rfl
      rw [hcast]
      by_cases hle : ((10 * n + (c.toNat - '0'.toNat) : Nat) : Int) ≤ hi
      · rw [if_pos hle, ih hle]
      · -- what follows cannot bring the value back below the bound
        rw [if_neg hle]
        have hgrow := le_ofDigitChars rest (10 * n + (c.toNat - '0'.toNat))
        constructor
        · intro h
          cases h
        · rintro ⟨-, rfl, hm⟩
          exact absurd (Int.le_trans (Int.ofNat_le.2 hgrow) hm) hle

/-- Reading downwards mirrors reading upwards. -/
theorem readDown_eq_ok_iff {lo n m : Int} {digits : List Char} :
    readDown lo (-n) digits = .ok m ↔ readUp (-lo) n digits = .ok (-m) := by
  induction digits generalizing n with
  | nil =>
    simp only [readUp, readDown, Except.ok.injEq]
    omega
  | cons c rest ih =>
    rw [readUp, readDown]
    cases digit? c with
    | none => simp
    | some d =>
      have hstep : -n * 10 - (d : Int) = -(n * 10 + d) := by omega
      have hbound : lo ≤ -(n * 10 + d) ↔ n * 10 + d ≤ -lo := by omega
      simp only [hstep, hbound]
      split
      · exact ih
      · simp

/-- **A text is read just if it is a numeral within the bounds**, and then as its value. -/
theorem readInt_eq_ok_iff {lo hi : Int} (hlo : lo ≤ 0) (hhi : 0 ≤ hi) {text : List Char} {n : Int} :
    readInt lo hi text = .ok n ↔ Numeral text n ∧ lo ≤ n ∧ n ≤ hi := by
  have hup (digits : List Char) : readUp hi 0 digits = .ok n ↔
      Digits digits ∧ n = Nat.ofDigitChars 10 digits 0 ∧ n ≤ hi :=
    readUp_eq_ok_iff (n := 0) hhi
  have hdown (digits : List Char) : readDown lo 0 digits = .ok n ↔
      Digits digits ∧ -n = Nat.ofDigitChars 10 digits 0 ∧ -n ≤ -lo := by
    have hmirror : readDown lo (-0) digits = .ok n ↔ readUp (-lo) 0 digits = .ok (-n) :=
      readDown_eq_ok_iff
    rw [Int.neg_zero] at hmirror
    rw [hmirror]
    exact readUp_eq_ok_iff (n := 0) (by omega)
  unfold readInt
  split
  · -- the empty text
    simp [numeral_unsigned_iff]
  · simp [numeral_plus_iff]
  · simp [numeral_minus_iff]
  · next digits hne =>
    rw [numeral_plus_iff]
    have hne : digits ≠ [] := fun h => hne (by rw [h])
    refine (hup digits).trans ⟨?_, ?_⟩
    · rintro ⟨hdigits, rfl, hle⟩
      exact ⟨⟨hne, hdigits, rfl⟩, by omega, hle⟩
    · rintro ⟨⟨-, hdigits, hn⟩, -, hle⟩
      exact ⟨hdigits, hn, hle⟩
  · next digits hne =>
    rw [numeral_minus_iff]
    have hne : digits ≠ [] := fun h => hne (by rw [h])
    refine (hdown digits).trans ⟨?_, ?_⟩
    · rintro ⟨hdigits, hn, hle⟩
      exact ⟨⟨hne, hdigits, by omega⟩, by omega, by omega⟩
    · rintro ⟨⟨-, hdigits, rfl⟩, hle, -⟩
      exact ⟨hdigits, Int.neg_neg _, by omega⟩
  · next hempty _ _ hplus hminus =>
    rw [numeral_unsigned_iff hplus hminus]
    refine (hup text).trans ⟨?_, ?_⟩
    · rintro ⟨hdigits, rfl, hle⟩
      exact ⟨⟨hempty, hdigits, rfl⟩, by omega, hle⟩
    · rintro ⟨⟨-, hdigits, hn⟩, -, hle⟩
      exact ⟨hdigits, hn, hle⟩

theorem readSymbol_eq_ok_iff {text : List Char} {n : Int} :
    readSymbol text = .ok n ↔ Numeral text n ∧ least32 ≤ n ∧ n ≤ greatest32 :=
  readInt_eq_ok_iff (by decide) (by decide)

/-! ### Base 16 -/

/-- The digit of a value below 16, in upper case. -/
def hexDigit (d : Nat) : Char := d.digitChar.toUpper

/-- The upper case of a digit, looked up. -/
def upperDigit (c : Char) : Char :=
  "0123456789ABCDEF".toList.getD ("0123456789abcdef".toList.idxOf c) c

theorem upperDigit_digitChar {d : Nat} (hd : d < 16) : upperDigit d.digitChar = hexDigit d := by
  revert d
  decide

theorem toList_hexUpper (width n : Nat) : (hexUpper width n).toList =
    List.replicate (width - (Nat.toDigits 16 n).length) '0' ++
      (Nat.toDigits 16 n).map upperDigit := by
  rw [hexUpper, hexDigits, String.toList_ofList, List.length_map]
  rfl

theorem hexUpper_one {n : Nat} (hn : n < 16) : (hexUpper 1 n).toList = [hexDigit n] := by
  rw [toList_hexUpper, Nat.toDigits_of_lt_base hn, List.map_singleton, upperDigit_digitChar hn]
  rfl

/-- **The last digit** of a padded number; the others are those of the number without it. -/
theorem hexUpper_succ (width n : Nat) : (hexUpper (width + 2) n).toList =
    (hexUpper (width + 1) (n / 16)).toList ++ [hexDigit (n % 16)] := by
  have hlast := upperDigit_digitChar (Nat.mod_lt n (by decide : 0 < 16))
  rw [toList_hexUpper, toList_hexUpper]
  by_cases hn : n < 16
  · -- one digit alone, behind one more zero
    have hpad : List.replicate (width + 1) '0' = List.replicate width '0' ++ [upperDigit '0'] :=
      List.replicate_succ'
    rw [Nat.mod_eq_of_lt hn] at hlast ⊢
    rw [Nat.div_eq_of_lt hn, Nat.toDigits_zero, Nat.toDigits_of_lt_base hn, List.map_singleton,
      List.map_singleton, hlast]
    exact congrArg (· ++ [hexDigit n]) hpad
  · have hdigits := Nat.toDigits_of_base_le (b := 16) (by decide) (Nat.not_lt.1 hn)
    have hpad : ∀ k, width + 2 - (k + 1) = width + 1 - k := fun k => Nat.add_sub_add_right _ 1 k
    rw [hdigits, List.map_append, List.length_append, List.map_singleton, hlast,
      List.length_singleton, hpad, List.append_assoc]

/-- Below `16 ^ 4`, four digits. -/
theorem hexUpper_four {n : Nat} (hn : n < 65536) : (hexUpper 4 n).toList =
    [hexDigit (n / 4096), hexDigit (n / 256 % 16), hexDigit (n / 16 % 16), hexDigit (n % 16)] := by
  rw [hexUpper_succ, hexUpper_succ, hexUpper_succ, hexUpper_one (by omega)]
  simp only [Nat.div_div_eq_div_mul]
  rfl

end SymbolAutomata.Text
