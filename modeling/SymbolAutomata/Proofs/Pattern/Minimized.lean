/-
  SymbolAutomata/Proofs/Pattern/Minimized.lean
  ============================================
  **Minimizing what a pattern compiles to.**

  Only plain expressions have graphs (`plain_of_graphOf`), so whatever compiles accepts
  the words of its expression inside the bounds, wherever the bounds lie and whatever the
  parser is.  As long as no label leaves the codec minimization keeps these words
  (`compile_minimized`).

  Beyond the codec it does not.  The last class of codepoints is closed at the end of the
  codec, and where it starts behind that end its two bounds change places: the minimal
  graph then accepts a codepoint below the bounds (`compile_minimized_above`).
-/
import SymbolAutomata.Proofs.Graph.Overflow
import SymbolAutomata.Proofs.Pattern.Language

namespace SymbolAutomata

namespace Pattern

open SymbolAutomata.Graph

/-! ### What compiles is plain -/

section Bounds

variable {min max : Codepoint}

mutual

/-- **Only plain expressions have graphs.** -/
theorem plain_of_graphOf :
    ∀ (e : Expression) {g : Graph}, graphOf min max e = .ok g → e.plain = true
  | .empty, _, _ => by rw [Expression.plain]
  | .literal _, _, _ => by rw [Expression.plain]
  | .cls _ _, _, _ => by rw [Expression.plain]
  | .assertion _, _, h => by
    rw [graphOf] at h
    cases h
  | .repetition part _ _ _, _, h => by
    rw [graphOf] at h
    obtain ⟨p, hp, -⟩ := exists_of_bind_eq_ok h
    rw [Expression.plain]
    exact plain_of_graphOf part hp
  | .capture _ part, _, h => by
    rw [graphOf] at h
    rw [Expression.plain]
    exact plain_of_graphOf part h
  | .concat parts, _, h => by
    rw [graphOf] at h
    rw [Expression.plain]
    exact plain_of_concatGraphs parts h
  | .alternation [], _, _ => by rw [Expression.plain, Expression.plainAll]
  | .alternation (branch :: rest), _, h => by
    rw [graphOf] at h
    obtain ⟨p, hp, hrest⟩ := exists_of_bind_eq_ok h
    rw [Expression.plain, Expression.plainAll, Bool.and_eq_true]
    exact ⟨plain_of_graphOf branch hp, plain_of_uniteGraphs rest hrest⟩

theorem plain_of_concatGraphs : ∀ (parts : List Expression) {g g' : Graph},
    concatGraphs min max g parts = .ok g' → Expression.plainAll parts = true
  | [], _, _, _ => by rw [Expression.plainAll]
  | part :: rest, _, _, h => by
    rw [concatGraphs] at h
    obtain ⟨p, hp, hrest⟩ := exists_of_bind_eq_ok h
    rw [Expression.plainAll, Bool.and_eq_true]
    exact ⟨plain_of_graphOf part hp, plain_of_concatGraphs rest hrest⟩

theorem plain_of_uniteGraphs : ∀ (branches : List Expression) {g g' : Graph},
    uniteGraphs min max g branches = .ok g' → Expression.plainAll branches = true
  | [], _, _, _ => by rw [Expression.plainAll]
  | branch :: rest, _, _, h => by
    rw [uniteGraphs] at h
    obtain ⟨p, hp, hrest⟩ := exists_of_bind_eq_ok h
    rw [Expression.plainAll, Bool.and_eq_true]
    exact ⟨plain_of_graphOf branch hp, plain_of_uniteGraphs rest hrest⟩

end

/-! ### The two ways to compile -/

variable {parser : Parser}

theorem compile_false (pattern : String) :
    compileWith parser false pattern min max = parse parser pattern >>= graphOf min max := by
  rw [compileWith]
  cases parse parser pattern with
  | error f => rfl
  | ok e =>
    change (graphOf min max e >>= fun g => pure g) = graphOf min max e
    rw [bind_pure]

/-- **Minimization comes last.** -/
theorem compile_true (pattern : String) : compileWith parser true pattern min max =
    (compileWith parser false pattern min max).map minimize := by
  rw [compileWith, compileWith]
  cases parse parser pattern with
  | error f => rfl
  | ok e =>
    change (graphOf min max e >>= fun g => pure g.minimize) =
      (graphOf min max e >>= fun g => pure g).map minimize
    cases graphOf min max e <;> rfl

/-- **What compiles accepts its expression inside the bounds**, also if they lie beyond the
    codec. -/
theorem spec_of_compile {pattern : String} {g : Graph}
    (h : compileWith parser false pattern min max = .ok g) :
    ∃ e, parse parser pattern = .ok e ∧ g.Fits max ∧
      g.language = clip (Inside min max) e.language := by
  rw [compile_false] at h
  obtain ⟨e, hparse, hgraph⟩ := exists_of_bind_eq_ok h
  obtain ⟨g', hg', hfits, hlang⟩ := graphOf_spec e (plain_of_graphOf e hgraph)
  obtain rfl := Except.ok.inj (hgraph.symm.trans hg')
  exact ⟨e, hparse, hfits, hlang⟩

/-- **Minimization of a compiled pattern cannot be seen in its language**, whatever the parser is.
    What compiles accepts words inside the bounds only. It compiles with minimization as well,
    unless a label ends at the last number of 32 bits, and to a graph that accepts the same words if
    the bounds, or at least all labels, lie inside the codec. -/
theorem compile_minimized {pattern : String} {g : Graph}
    (h : compileWith parser false pattern min max = .ok g) :
    (∀ w, g.run w = true → ∀ c ∈ w, min ≤ c ∧ c ≤ max) ∧
      (max < Text.natural32 ∨ g.Encoded → g.Within32) ∧
      (g.Within32 → ∃ m, compileWith parser true pattern min max = .ok m ∧
        (max ≤ Codec.maxCodepoint ∨ g.Encoded → ∀ w, m.run w = g.run w)) := by
  obtain ⟨e, -, hfits, hlang⟩ := spec_of_compile h
  refine ⟨?_, ?_, fun _ => ⟨g.minimize, by rw [compile_true, h]; rfl, ?_⟩⟩
  · intro w hw
    have hmem : w ∈ g.language := run_eq_true_iff.1 hw
    rw [hlang] at hmem
    exact hmem.2
  · intro hinside
    exact hinside.elim hfits.endsBy.within32 Encoded.within32
  · intro hinside w
    have henc : g.Encoded := hinside.elim (fun hmax => (hfits.mono hmax).endsBy) id
    exact run_eq_of_accepts_iff (accepts_minimize henc hfits.rooted.grounded)

end Bounds

/-- The expression of `.`, which is any character. -/
def anything : Expression := .cls false [Interval.between 0 0x10FFFF]

theorem standard_dot : standard "." = .ok anything := by cbv

theorem compile_minimized_dot :
    standard "." = .ok anything ∧
      compileWith standard false "." 97 99 = .ok (oneOf [Interval.between 97 99]) ∧
      ∃ m, compileWith standard true "." 97 99 = .ok m ∧ m.run [98] = true ∧
        m.run [100] = false := by
  have h : compileWith standard false "." 97 99 = .ok (oneOf [Interval.between 97 99]) := by cbv
  obtain ⟨-, hwithin, hminimized⟩ := compile_minimized h
  obtain ⟨m, hm, hsame⟩ := hminimized (hwithin (Or.inl (by decide)))
  have hrun := hsame (Or.inl (by decide))
  refine ⟨standard_dot, h, m, hm, ?_, ?_⟩
  · rw [hrun]
    decide
  · rw [hrun]
    decide

/-! ### Beyond the codec -/

/-- One step over any codepoint that lies beyond the codec. -/
def above : Graph := oneOf [Interval.between 65536 1114111]

theorem run_minimize_above :
    above.minimize.run [65535] = true ∧ above.minimize.run [65537] = false := by
  decide_cbv

/-- The bounds start at 65536. Without minimization they are kept, and with it 65535 is accepted and
    65537 is not. -/
theorem compile_minimized_above :
    standard "." = .ok anything ∧
      ∃ g m, compileWith standard false "." 65536 1114111 = .ok g ∧
        compileWith standard true "." 65536 1114111 = .ok m ∧
        (g.run [65535] = false ∧ m.run [65535] = true) ∧
        g.run [65537] = true ∧ m.run [65537] = false := by
  have h : compileWith standard false "." 65536 1114111 = .ok above := by cbv
  have hm : compileWith standard true "." 65536 1114111 = .ok above.minimize := by
    rw [compile_true, h]
    rfl
  obtain ⟨hlow, hhigh⟩ := run_minimize_above
  exact ⟨standard_dot, above, above.minimize, h, hm, ⟨by decide, hlow⟩, by decide, hhigh⟩

end Pattern

end SymbolAutomata
