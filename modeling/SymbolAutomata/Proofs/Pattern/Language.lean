/-
  SymbolAutomata/Proofs/Pattern/Language.lean
  ===========================================
  **Patterns compile to their languages.**

  `Expression.language` is the language of an expression, constructor by constructor.
  A class holds the codepoints of its intervals.  Graphs are built along the
  expression: each has the language of its part, cut down to the bounds
  (`graphOf_spec`), although only classes are ever cut.  Neither minimization nor
  filling an automaton in the end changes anything about words of symbols inside
  the bounds.  All of this holds for any parser of expressions.
-/
import SymbolAutomata.Pattern.Standard
import SymbolAutomata.Proofs.Automaton.Acceptance

namespace SymbolAutomata

namespace Pattern

open SymbolAutomata.Graph

/-! ### Expressions -/

namespace Expression

mutual

/-- Whether there are no conditions on the place of a match. -/
def plain : Expression → Bool
  | .empty | .literal _ | .cls _ _ => true
  | .assertion _ => false
  | .repetition part _ _ _ => part.plain
  | .capture _ part => part.plain
  | .concat parts => plainAll parts
  | .alternation branches => plainAll branches

/-- Whether all expressions of a list are plain. -/
def plainAll : List Expression → Bool
  | [] => true
  | e :: rest => e.plain && plainAll rest

end

mutual

/-- **The language of an expression.** A condition on the place of a match has none. -/
def language : Expression → Language Codepoint
  | .empty => 1
  | .literal word => only word
  | .cls _ set => letters fun c => ∃ i ∈ set, i.contains c = true
  | .assertion _ => 0
  | .repetition part least most _ =>
    repeated part.language fun k => least ≤ k ∧ ∀ m, most = some m → k ≤ m
  | .capture _ part => part.language
  | .concat parts => languageOfParts parts
  | .alternation branches => languageOfBranches branches

/-- One word of each part, one after the other. -/
def languageOfParts : List Expression → Language Codepoint
  | [] => 1
  | part :: rest => part.language * languageOfParts rest

/-- The words of all branches. -/
def languageOfBranches : List Expression → Language Codepoint
  | [] => 0
  | branch :: rest => branch.language + languageOfBranches rest

end

end Expression

/-! ### Classes and literals -/

section Bounds

variable {min max : Codepoint}

/-- The codepoints inside the bounds. -/
def Inside (min max c : Codepoint) : Prop := min ≤ c ∧ c ≤ max

theorem language_classGraph (set : CharClass) : (classGraph min max set).language =
    clip (Inside min max) (letters fun c => ∃ i ∈ set, i.contains c = true) := by
  rw [classGraph, language_oneOf, clip_letters]
  congr 1
  funext c
  rw [eq_iff_iff]
  simp only [List.mem_filterMap]
  constructor
  · intro h
    rcases h with ⟨j, ⟨i, hi, hj⟩, hc⟩
    obtain ⟨hci, hbounds⟩ := Interval.contains_clip.1 ⟨j, hj, hc⟩
    exact ⟨⟨i, hi, hci⟩, hbounds⟩
  · intro h
    rcases h with ⟨⟨i, hi, hci⟩, hbounds⟩
    obtain ⟨j, hj, hc⟩ := Interval.contains_clip.2 ⟨hci, hbounds⟩
    exact ⟨j, ⟨i, hi, hj⟩, hc⟩

theorem fits_classGraph (set : CharClass) : (classGraph min max set).Fits max := by
  apply fits_oneOf
  intro j hj
  obtain ⟨i, -, hclip⟩ := List.mem_filterMap.1 hj
  exact (Interval.contains_clip.1 ⟨j, hclip, j.contains_max⟩).2.2

theorem literal_spec (word : List Nat) {g : Graph} (hg : g.Fits max) :
    (word.foldl (fun g c => g.concatenate (classGraph min max [Interval.single c])) g).Fits max ∧
      (word.foldl (fun g c => g.concatenate (classGraph min max [Interval.single c])) g).language =
        g.language * clip (Inside min max) (only word) := by
  induction word generalizing g with
  | nil =>
    refine ⟨hg, ?_⟩
    have hone : only ([] : List Nat) = 1 := rfl
    rw [List.foldl_nil, hone, clip_one, mul_one]
  | cons c word ih =>
    obtain ⟨hfits, hlang⟩ := ih (hg.concatenate (fits_classGraph [Interval.single c]))
    refine ⟨hfits, ?_⟩
    rw [List.foldl_cons, hlang, language_concatenate, language_classGraph, mul_assoc, ← clip_mul,
      only_cons]
    simp only [List.mem_singleton, exists_eq_left, Interval.contains_single]

/-! ### The graph of an expression -/

mutual

/-- **Every plain expression has a graph**, whose language is that of the expression inside the
    bounds. -/
theorem graphOf_spec : ∀ e : Expression, e.plain = true →
    ∃ g, graphOf min max e = .ok g ∧ g.Fits max ∧
      g.language = clip (Inside min max) e.language
  | .empty, _ => by
    refine ⟨emptyWord, by rw [graphOf], fits_emptyWord, ?_⟩
    rw [language_emptyWord, Expression.language, clip_one]
  | .literal word, _ => by
    obtain ⟨hfits, hlang⟩ := @literal_spec min max word _ fits_emptyWord
    refine ⟨_, by rw [graphOf], hfits, ?_⟩
    rw [hlang, language_emptyWord, one_mul, Expression.language]
  | .cls _ set, _ => by
    refine ⟨_, by rw [graphOf], fits_classGraph set, ?_⟩
    rw [language_classGraph, Expression.language]
  | .assertion _, h => by
    rw [Expression.plain] at h
    cases h
  | .repetition part least most _, h => by
    rw [Expression.plain] at h
    obtain ⟨g, hg, hfits, hlang⟩ := graphOf_spec part h
    rw [graphOf, hg]
    cases most with
    | some most =>
      refine ⟨g.repeatRange least most, rfl, hfits.repeatRange least most, ?_⟩
      rw [language_repeatRange, hlang, Expression.language, clip_repeated]
      simp only [Option.some.injEq, forall_eq']
    | none =>
      refine ⟨g.repeatMin least, rfl, hfits.repeatMin least, ?_⟩
      rw [language_repeatMin, hlang, Expression.language, clip_repeated]
      simp only [reduceCtorEq, false_implies, implies_true, and_true]
  | .capture _ part, h => by
    rw [Expression.plain] at h
    obtain ⟨g, hg, hfits, hlang⟩ := graphOf_spec part h
    exact ⟨g, by rw [graphOf, hg], hfits, by rw [hlang, Expression.language]⟩
  | .concat parts, h => by
    rw [Expression.plain] at h
    obtain ⟨g, hg, hfits, hlang⟩ := concatGraphs_spec parts h fits_emptyWord
    refine ⟨g, by rw [graphOf, hg], hfits, ?_⟩
    rw [hlang, language_emptyWord, one_mul, Expression.language]
  | .alternation [], _ => by
    refine ⟨emptyLanguage, by rw [graphOf], fits_emptyLanguage, ?_⟩
    rw [language_emptyLanguage, Expression.language, Expression.languageOfBranches, clip_zero]
  | .alternation (branch :: rest), h => by
    rw [Expression.plain, Expression.plainAll, Bool.and_eq_true] at h
    obtain ⟨g, hg, hfits, hlang⟩ := graphOf_spec branch h.1
    obtain ⟨g', hg', hfits', hlang'⟩ := uniteGraphs_spec rest h.2 hfits
    refine ⟨g', by rw [graphOf, hg]; exact hg', hfits', ?_⟩
    rw [hlang', hlang, Expression.language, Expression.languageOfBranches, clip_add]

theorem concatGraphs_spec :
    ∀ parts : List Expression, Expression.plainAll parts = true → ∀ {g : Graph}, g.Fits max →
      ∃ g', concatGraphs min max g parts = .ok g' ∧ g'.Fits max ∧
        g'.language = g.language * clip (Inside min max) (Expression.languageOfParts parts)
  | [], _, g, hg => by
    refine ⟨g, by rw [concatGraphs], hg, ?_⟩
    rw [Expression.languageOfParts, clip_one, mul_one]
  | part :: rest, h, g, hg => by
    rw [Expression.plainAll, Bool.and_eq_true] at h
    obtain ⟨p, hp, hfits, hlang⟩ := graphOf_spec part h.1
    obtain ⟨g', hg', hfits', hlang'⟩ := concatGraphs_spec rest h.2 (hg.concatenate hfits)
    refine ⟨g', by rw [concatGraphs, hp]; exact hg', hfits', ?_⟩
    rw [hlang', language_concatenate, hlang, mul_assoc, ← clip_mul, Expression.languageOfParts]

theorem uniteGraphs_spec :
    ∀ branches : List Expression, Expression.plainAll branches = true → ∀ {g : Graph}, g.Fits max →
      ∃ g', uniteGraphs min max g branches = .ok g' ∧ g'.Fits max ∧
        g'.language = g.language + clip (Inside min max) (Expression.languageOfBranches branches)
  | [], _, g, hg => by
    refine ⟨g, by rw [uniteGraphs], hg, ?_⟩
    rw [Expression.languageOfBranches, clip_zero, add_zero]
  | branch :: rest, h, g, hg => by
    rw [Expression.plainAll, Bool.and_eq_true] at h
    obtain ⟨p, hp, hfits, hlang⟩ := graphOf_spec branch h.1
    obtain ⟨g', hg', hfits', hlang'⟩ := uniteGraphs_spec rest h.2 (hg.union hfits)
    refine ⟨g', by rw [uniteGraphs, hp]; exact hg', hfits', ?_⟩
    rw [hlang', language_union, hlang, add_assoc, ← clip_add, Expression.languageOfBranches]

end

/-- What the parser makes of the expanded pattern is the expression of the pattern. -/
theorem parse_eq_ok {parser : Parser} {pattern text : String} {e : Expression}
    (hexpand : expand pattern = .ok text) (hparse : parser text = .ok e) :
    parse parser pattern = .ok e := by
  simp only [parse, hexpand, hparse, bind, Except.bind]

/-- **Every plain pattern compiles**, minimized or not. -/
theorem compile_spec (hmax : max ≤ Codec.maxCodepoint) {parser : Parser} {pattern : String}
    {e : Expression} (hparse : parse parser pattern = .ok e) (hplain : e.plain = true)
    (minimize : Bool) :
    ∃ g, compileWith parser minimize pattern min max = .ok g ∧ g.Proper ∧
      g.language = clip (Inside min max) e.language := by
  obtain ⟨g, hg, hfits, hlang⟩ := @graphOf_spec min max e hplain
  have hproper : g.Proper := hfits.mono hmax
  have hcompile : compileWith parser minimize pattern min max =
      .ok (if minimize then g.minimize else g) := by
    rw [compileWith, hparse]
    change (graphOf min max e >>= fun g => _) = _
    rw [hg]
    rfl
  cases minimize with
  | false => exact ⟨g, hcompile, hproper, hlang⟩
  | true =>
    refine ⟨g.minimize, hcompile, hproper.minimize, ?_⟩
    rw [← hlang]
    ext w
    exact accepts_minimize hproper.endsBy hproper.rooted.grounded

end Bounds

/-! ### The automaton of a pattern -/

/-- The bounds of the automaton cut off nothing that a symbol could have. -/
theorem inside_withClamp_iff {min max : Codepoint} {s : Symbol} (hs : Codec.IsSymbol s) :
    Inside (Automaton.withClamp min max).min (Automaton.withClamp min max).max (Codec.code s) ↔
      Inside min max (Codec.code s) := by
  have hcode := Codec.code_le_max hs
  constructor
  · intro h
    rcases h with ⟨hlo, hhi⟩
    exact ⟨(Nat.max_le.1 hlo).1, (Nat.le_min.1 hhi).1⟩
  · intro h
    rcases h with ⟨hlo, hhi⟩
    exact ⟨Nat.max_le.2 ⟨hlo, Nat.zero_le _⟩, Nat.le_min.2 ⟨hhi, hcode⟩⟩

/-- **The symbols of accepted words** are among those that the graph carries. -/
theorem mem_symbolsOf_of_acceptsFrom {a : Automaton} {g : Graph} {p : NodeId} {w : List Symbol}
    (hw : Codec.Spells w) (hclamp : ∀ s ∈ w, Inside a.min a.max (Codec.code s))
    (hacc : g.AcceptsFrom p (w.map Codec.code)) : ∀ s ∈ w, s ∈ a.symbolsOf g := by
  induction w generalizing p with
  | nil => exact fun s hs => absurd hs List.not_mem_nil
  | cons s w ih =>
    rw [Codec.Spells, List.forall_mem_cons] at hw
    rw [List.forall_mem_cons] at hclamp
    rw [List.map_cons, acceptsFrom_cons_iff] at hacc
    obtain ⟨q, hq, hacc⟩ := hacc
    obtain ⟨i, arrow, hc⟩ := mem_targets.1 hq
    refine List.forall_mem_cons.2 ⟨?_, ih hw.2 hclamp.2 hacc⟩
    exact Automaton.mem_symbolsOf.2 ⟨p, i, q, arrow, hw.1, hc, hclamp.1⟩

/-- **A pattern accepts its regular language inside the bounds**, whatever parser is used: every
    pattern whose expansion the parser takes to a plain expression compiles, and of the words of
    symbols it accepts those whose codepoints spell a word of the expression and all lie inside the
    bounds. -/
theorem ofPattern_run {parser : Parser} {pattern text : String} {e : Expression}
    (hexpand : expand pattern = .ok text) (hparse : parser text = .ok e) (hplain : e.plain = true)
    (min max : Codepoint) (minimize : Bool) :
    ∃ a, Automaton.ofCompiler (compileWith parser minimize) pattern min max = .ok a ∧
      ∀ w, Codec.Spells w → ∃ b, a.run w = .ok b ∧
        (b = true ↔ w.map Codec.code ∈ e.language ∧
          ∀ s ∈ w, min ≤ Codec.code s ∧ Codec.code s ≤ max) := by
  have hbound : (Automaton.withClamp min max).max ≤ Codec.maxCodepoint := Nat.min_le_right _ _
  obtain ⟨g, hg, hproper, hlang⟩ := @compile_spec (Automaton.withClamp min max).min _ hbound parser
    pattern e (parse_eq_ok hexpand hparse) hplain minimize
  refine ⟨(Automaton.withClamp min max).fill g ((Automaton.withClamp min max).symbolsOf g), ?_, ?_⟩
  · rw [Automaton.ofCompiler, hg]
    rfl
  intro w hw
  obtain ⟨b, hb, hiff⟩ :=
    Automaton.run_eq_of_language (Automaton.honest_fill hproper.honest min max _) hw
  refine ⟨b, hb, ?_⟩
  rw [hiff, Automaton.language_fill hproper.honest, mem_clip, mem_comap, hlang, mem_clip,
    List.forall_mem_map]
  constructor
  · intro h
    rcases h with ⟨⟨hmem, hall⟩, -⟩
    exact ⟨hmem, fun s hs => (inside_withClamp_iff (hw s hs)).1 (hall s hs)⟩
  · intro h
    rcases h with ⟨hmem, hall⟩
    have hclamp := fun s hs => (inside_withClamp_iff (hw s hs)).2 (hall s hs)
    refine ⟨⟨hmem, hclamp⟩, fun s hs => ⟨hw s hs, ?_, hall s hs⟩⟩
    have hacc : g.Accepts (w.map Codec.code) := by
      rw [← mem_language, hlang, mem_clip, List.forall_mem_map]
      exact ⟨hmem, hclamp⟩
    obtain ⟨i, -, hfrom⟩ := hacc
    exact mem_symbolsOf_of_acceptsFrom hw hclamp hfrom s hs

/-- The expansion of `(0|1)+2{0,2}`. -/
def digitsText : String := "(\\x\x7b0000\x7d|\\x\x7b0001\x7d)+\\x\x7b0002\x7d\x7b0,2\x7d"

/-- Its expression. -/
def digits : Expression :=
  .concat [.repetition (.capture 1 (.cls false [Interval.between 0 1])) 1 none true,
    .repetition (.literal [2]) 0 (some 2) true]

/-- The program's own parser is one such parser. -/
theorem ofPattern_run_digits :
    expand "(0|1)+2\x7b0,2\x7d" = .ok digitsText ∧ standard digitsText = .ok digits ∧
      digits.plain = true ∧
      ∃ a, Automaton.ofPattern "(0|1)+2\x7b0,2\x7d" 0 2 true = .ok a ∧
        a.run [0, 1, 2] = .ok true := by
  have hexpand : expand "(0|1)+2\x7b0,2\x7d" = .ok digitsText := by decide_cbv
  have hparse : standard digitsText = .ok digits := by cbv
  have hplain : digits.plain = true := by rfl
  refine ⟨hexpand, hparse, hplain, ?_⟩
  obtain ⟨a, ha, hrun⟩ := ofPattern_run hexpand hparse hplain 0 2 true
  refine ⟨a, ha, ?_⟩
  have hspells : Codec.Spells [0, 1, 2] := by
    unfold Codec.Spells Codec.IsSymbol
    decide
  obtain ⟨b, hb, hiff⟩ := hrun [0, 1, 2] hspells
  have hfirst : [0, 1] ∈ (Expression.repetition (.capture 1 (.cls false [Interval.between 0 1])) 1
      none true).language := by
    refine ⟨[[0], [1]], ⟨by decide, fun m hm => by cases hm⟩, ?_, rfl⟩
    simp only [List.mem_cons, List.not_mem_nil, or_false, forall_eq_or_imp, forall_eq]
    refine ⟨⟨0, ⟨_, List.mem_singleton_self _, by decide⟩, rfl⟩, ?_⟩
    exact ⟨1, ⟨_, List.mem_singleton_self _, by decide⟩, rfl⟩
  have hsecond : [2] ∈ (Expression.repetition (.literal [2]) 0 (some 2) true).language := by
    refine ⟨[[2]], ⟨by decide, fun m hm => ?_⟩, ?_, rfl⟩
    · rw [← Option.some.inj hm]
      decide
    · intro v hv
      rw [List.mem_singleton.1 hv, Expression.language]
      rfl
  have hmem : [0, 1, 2] ∈ digits.language := by
    have hone : ([] : List Codepoint) ∈ (1 : Language Codepoint) := rfl
    exact Language.append_mem_mul hfirst (Language.append_mem_mul hsecond hone)
  rw [hb, hiff.2 ⟨hmem, by decide⟩]

end Pattern

end SymbolAutomata
