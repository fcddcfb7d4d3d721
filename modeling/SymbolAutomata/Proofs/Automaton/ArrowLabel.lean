/-
  SymbolAutomata/Proofs/Automaton/ArrowLabel.lean
  ===============================================
  **Labels of drawn arrows can be read back.**

  A list of symbols falls into runs of consecutive ones, and the runs laid out one after
  the other are the list again, be it increasing or not (`flatMap_span_runs`).  A run is
  written as one number, as two, or as a range.  Between its commas a label has parts that
  are numbers or ranges, and what they stand for (`labelSymbols`) is what was written down
  (`labelSymbols_arrowLabel`), so that different lists have different labels.
-/
import SymbolAutomata.Automaton.Drawing
import SymbolAutomata.Proofs.Automaton.Labels
import SymbolAutomata.Proofs.Text.Numeral

namespace SymbolAutomata

/-! ### Runs -/

namespace SymbolSet

variable {first last : Symbol} {symbols : List Symbol}

theorem span_self (s : Symbol) : span s s = [s] := by
  have hone : (s + 1 - s).toNat = 1 := by
    simp only [Symbol] at *
    omega
  rw [span, hone]
  exact congrArg (fun t => [t]) (Int.add_zero s)

theorem span_succ (h : first ≤ last) : span first (last + 1) = span first last ++ [last + 1] := by
  have hcount : (last + 1 + 1 - first).toNat = (last + 1 - first).toNat + 1 := by
    simp only [Symbol] at *
    omega
  have hlast : first + ((last + 1 - first).toNat : Int) = last + 1 := by
    simp only [Symbol] at *
    omega
  rw [span, hcount, List.range_succ, List.map_append, List.map_singleton, hlast]
  rfl

theorem flatMap_span_runsFrom (h : first ≤ last) :
    (runsFrom first last symbols).flatMap (fun run => span run.1 run.2) =
      span first last ++ symbols := by
  induction symbols generalizing first last with
  | nil => simp [runsFrom]
  | cons s rest ih =>
    rw [runsFrom]
    split
    · next hs =>
      subst hs
      rw [ih (Int.le_trans h (Int.le_of_lt (Int.lt_succ last))), span_succ h, List.append_assoc]
      rfl
    · rw [List.flatMap_cons, ih (Int.le_refl s), span_self]
      rfl

/-- **Runs laid out one after the other** are the list they were taken from. -/
theorem flatMap_span_runs (symbols : List Symbol) :
    (runs symbols).flatMap (fun run => span run.1 run.2) = symbols := by
  cases symbols with
  | nil => rfl
  | cons s rest =>
    rw [runs, flatMap_span_runsFrom (Int.le_refl s), span_self]
    rfl

theorem runsFrom_ne_nil (first last : Symbol) (symbols : List Symbol) :
    runsFrom first last symbols ≠ [] := by
  induction symbols generalizing first last with
  | nil => exact List.cons_ne_nil _ _
  | cons s rest ih =>
    rw [runsFrom]
    split
    · exact ih _ _
    · exact List.cons_ne_nil _ _

end SymbolSet

/-! ### Reading labels -/

/-- The number that a text denotes. -/
def number? (text : List Char) : Option Symbol := (Text.readSymbol text).toOption

/-- The symbols that a part of a label stands for: those of a range, one, or none. -/
def partSymbols (part : List Char) : Option (List Symbol) :=
  if part = [] then some []
  else
    match part.splitOn '.' with
    | [text] => (number? text).map fun s => [s]
    | [first, [], last] =>
      (number? first).bind fun f => (number? last).map fun l => SymbolSet.span f l
    | _ => none

/-- The symbols of all parts in their order. -/
def partsSymbols : List (List Char) → Option (List Symbol)
  | [] => some []
  | part :: rest => (partSymbols part).bind fun ss => (partsSymbols rest).map (ss ++ ·)

/-- **The symbols that a label stands for**: its parts, between braces, are separated by commas. -/
def labelSymbols (label : String) : Option (List Symbol) :=
  match label.toList with
  | '\x7b' :: rest =>
    if rest.getLast? = some '\x7d' then partsSymbols (rest.dropLast.splitOn ',') else none
  | _ => none

/-! ### Texts of symbols -/

section Texts

variable {s : Symbol}

theorem digits_toString (hs : 0 ≤ s) : Text.Digits (toString s).toList := by
  rw [Int.toString_eq_repr, Int.repr_eq_if, if_pos hs, Nat.toList_repr]
  exact Text.digits_toDigits _

theorem number?_toString (hs : Codec.IsSymbol s) : number? (toString s).toList = some s := by
  have hread : Text.readSymbol (toString s).toList = .ok s := by
    have hbounds := hs
    rw [Codec.IsSymbol, Codec.maxSymbol_eq] at hbounds
    refine Text.readSymbol_eq_ok_iff.2 ⟨Text.numeral_toString s, ?_, ?_⟩
    · exact Int.le_trans (by decide) hbounds.1
    · exact Int.le_trans hbounds.2 (by decide)
  rw [number?, hread]
  rfl

theorem splitOn_toString (hs : 0 ≤ s) {c : Char} (hc : c.isDigit = false) :
    (toString s).toList.splitOn c = [(toString s).toList] :=
  List.splitOn_eq_singleton ((digits_toString hs).not_mem hc)

theorem partSymbols_toString (hs : Codec.IsSymbol s) :
    partSymbols (toString s).toList = some [s] := by
  rw [partSymbols, if_neg (Text.numeral_toString s).ne_nil, splitOn_toString hs.1 (by decide)]
  dsimp only
  rw [number?_toString hs]
  rfl

theorem partSymbols_range {first last : Symbol} (hfirst : Codec.IsSymbol first)
    (hlast : Codec.IsSymbol last) : partSymbols (toString first ++ ".." ++ toString last).toList =
      some (SymbolSet.span first last) := by
  have htext : (toString first ++ ".." ++ toString last).toList =
      (toString first).toList ++ '.' :: ([] ++ '.' :: (toString last).toList) := by
    rw [String.toList_append, String.toList_append, List.append_assoc]
    rfl
  have hne : (toString first).toList ++ '.' :: ([] ++ '.' :: (toString last).toList) ≠ [] := by
    simp
  rw [htext, partSymbols, if_neg hne, List.splitOn_append_cons_self,
    List.splitOn_append_cons_self, splitOn_toString hfirst.1 (by decide),
    splitOn_toString hlast.1 (by decide)]
  show (number? _).bind _ = _
  rw [number?_toString hfirst]
  show (number? _).map _ = _
  rw [number?_toString hlast]
  rfl

end Texts

/-! ### Labels -/

theorem partsSymbols_append {parts more : List (List Char)} {ss ts : List Symbol}
    (hparts : partsSymbols parts = some ss) (hmore : partsSymbols more = some ts) :
    partsSymbols (parts ++ more) = some (ss ++ ts) := by
  induction parts generalizing ss with
  | nil =>
    obtain rfl := Option.some.inj hparts
    exact hmore
  | cons part parts ih =>
    obtain ⟨us, hpart, hrest⟩ := Option.bind_eq_some_iff.1 hparts
    obtain ⟨vs, hvs, rfl⟩ := Option.map_eq_some_iff.1 hrest
    rw [List.cons_append, partsSymbols, hpart, Option.bind_some, ih hvs, Option.map_some,
      List.append_assoc]

/-- **A run stands for its symbols.** -/
theorem partsSymbols_renderRun {first last : Symbol} (hfirst : Codec.IsSymbol first)
    (hlast : Codec.IsSymbol last) : partsSymbols ((renderRun (first, last)).toList.splitOn ',') =
      some (SymbolSet.span first last) := by
  have hone : ∀ {text ss}, partSymbols text = some ss → partsSymbols [text] = some ss := by
    intro text ss h
    rw [partsSymbols, h, Option.bind_some, partsSymbols, Option.map_some, List.append_nil]
  rw [renderRun]
  split
  · next hsame =>
    rw [splitOn_toString hfirst.1 (by decide), hone (partSymbols_toString hfirst), hsame,
      SymbolSet.span_self]
  · split
    · next hnext =>
      have htext : (toString first ++ "," ++ toString last).toList =
          (toString first).toList ++ ',' :: (toString last).toList := by
        rw [String.toList_append, String.toList_append, List.append_assoc]
        rfl
      rw [htext, List.splitOn_append_cons_self, splitOn_toString hfirst.1 (by decide),
        splitOn_toString hlast.1 (by decide), partsSymbols_append
          (hone (partSymbols_toString hfirst)) (hone (partSymbols_toString hlast)), hnext,
        SymbolSet.span_succ (Int.le_refl first), SymbolSet.span_self]
    · have hcomma : ',' ∉ (toString first ++ ".." ++ toString last).toList := by
        rw [String.toList_append, String.toList_append, List.mem_append, List.mem_append]
        have hdots : ',' ∉ "..".toList := by decide
        exact not_or.2 ⟨not_or.2 ⟨(digits_toString hfirst.1).not_mem (by decide), hdots⟩,
          (digits_toString hlast.1).not_mem (by decide)⟩
      rw [List.splitOn_eq_singleton hcomma, hone (partSymbols_range hfirst hlast)]

/-- The text of a run has digits, commas and dots only. -/
theorem not_mem_renderRun {first last : Symbol} (hfirst : 0 ≤ first) (hlast : 0 ≤ last) {c : Char}
    (hdigit : c.isDigit = false) (hcomma : c ≠ ',') (hdot : c ≠ '.') :
    c ∉ (renderRun (first, last)).toList := by
  have hf := (digits_toString hfirst).not_mem hdigit
  have hl := (digits_toString hlast).not_mem hdigit
  rw [renderRun]
  split
  · exact hf
  · split
    · simpa [hcomma] using And.intro hf hl
    · simpa [hdot] using And.intro hf hl

theorem not_mem_intercalate {c sep : Char} (hsep : c ≠ sep) {texts : List (List Char)}
    (h : ∀ text ∈ texts, c ∉ text) : c ∉ [sep].intercalate texts := by
  induction texts with
  | nil => exact List.not_mem_nil
  | cons text texts ih =>
    rw [List.forall_mem_cons] at h
    cases texts with
    | nil => simpa using h.1
    | cons next texts =>
      rw [List.intercalate_cons_cons, List.append_assoc, List.singleton_append]
      simp only [List.mem_append, List.mem_cons, hsep, false_or, not_or]
      exact ⟨h.1, ih h.2⟩

/-- A joined text is split where its parts are and where it was joined. -/
theorem splitOn_intercalate_eq_flatMap (c : Char) {texts : List (List Char)} (hne : texts ≠ []) :
    ([c].intercalate texts).splitOn c = texts.flatMap (List.splitOn c) := by
  induction texts with
  | nil => exact absurd rfl hne
  | cons text texts ih =>
    cases texts with
    | nil => simp
    | cons next texts =>
      rw [List.intercalate_cons_cons, List.append_assoc, List.singleton_append,
        List.splitOn_append_cons_self, ih (List.cons_ne_nil _ _)]
      rfl

theorem partsSymbols_flatMap_renderRun {runs : List (Symbol × Symbol)}
    (hruns : ∀ run ∈ runs, Codec.IsSymbol run.1 ∧ Codec.IsSymbol run.2) :
    partsSymbols ((runs.map fun run => (renderRun run).toList).flatMap (List.splitOn ',')) =
      some (runs.flatMap fun run => SymbolSet.span run.1 run.2) := by
  induction runs with
  | nil => rfl
  | cons run runs ih =>
    rw [List.forall_mem_cons] at hruns
    obtain ⟨⟨hfirst, hlast⟩, hrest⟩ := hruns
    exact partsSymbols_append (partsSymbols_renderRun hfirst hlast) (ih hrest)

theorem toList_arrowLabel (symbols : List Symbol) : (arrowLabel symbols).toList = '\x7b' ::
    ([','].intercalate ((SymbolSet.runs symbols).map fun run => (renderRun run).toList) ++
      ['\x7d']) := by
  rw [arrowLabel, String.toList_append, String.toList_append, String.toList_intercalate,
    List.map_map]
  rfl

/-- A label fills no more than one line. -/
theorem newline_not_mem_arrowLabel {symbols : List Symbol}
    (hall : ∀ s ∈ symbols, Codec.IsSymbol s) : '\n' ∉ (arrowLabel symbols).toList := by
  have hruns : '\n' ∉ [','].intercalate
      ((SymbolSet.runs symbols).map fun run => (renderRun run).toList) := by
    refine not_mem_intercalate (by decide) fun text htext => ?_
    obtain ⟨run, hrun, rfl⟩ := List.mem_map.1 htext
    obtain ⟨hfirst, hlast⟩ := SymbolSet.ends_of_mem_runs hrun
    exact not_mem_renderRun (hall _ hfirst).1 (hall _ hlast).1 (by decide) (by decide) (by decide)
  rw [toList_arrowLabel]
  simp [hruns]

/-- **Reading a label gives the symbols back.** -/
theorem labelSymbols_arrowLabel {symbols : List Symbol} (hall : ∀ s ∈ symbols, Codec.IsSymbol s) :
    labelSymbols (arrowLabel symbols) = some symbols := by
  have hruns : ∀ run ∈ SymbolSet.runs symbols,
      Codec.IsSymbol run.1 ∧ Codec.IsSymbol run.2 := by
    intro run hrun
    obtain ⟨hfirst, hlast⟩ := SymbolSet.ends_of_mem_runs hrun
    exact ⟨hall _ hfirst, hall _ hlast⟩
  have hparts := partsSymbols_flatMap_renderRun hruns
  rw [SymbolSet.flatMap_span_runs] at hparts
  rw [labelSymbols, toList_arrowLabel]
  show (if _ then _ else _) = _
  rw [if_pos List.getLast?_concat, List.dropLast_concat]
  cases symbols with
  | nil => rfl
  | cons s rest =>
    have hne : (SymbolSet.runs (s :: rest)).map (fun run => (renderRun run).toList) ≠ [] :=
      fun hnil => SymbolSet.runsFrom_ne_nil s s rest (List.map_eq_nil_iff.1 hnil)
    rw [splitOn_intercalate_eq_flatMap ',' hne, hparts]

end SymbolAutomata
