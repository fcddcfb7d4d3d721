/-
  SymbolAutomata/Graph/Language.lean
  ==================================
  **The language of a graph**, by paths.

  `Reads` says that arrows spell a word on the way from one node to another, and
  `Accepts` that they spell it from the initial node to an accepting one. Both are
  stated over the arrow relation alone; `run_eq_true_iff` says that the set
  simulation decides them, so everything said of `run` can be argued path by path.
-/
import SymbolAutomata.Graph.Run

namespace SymbolAutomata

namespace Graph

/-! ### Paths -/

/-- **Arrows that spell a word.** Each step follows one arrow whose label holds the codepoint. -/
inductive Reads (g : Graph) : NodeId → List Codepoint → NodeId → Prop where
  | nil (p : NodeId) : Reads g p [] p
  | cons {p q r : NodeId} {i : Interval} {c : Codepoint} {w : List Codepoint}
      (arrow : g.Arrow p i q) (carries : i.contains c = true) (rest : Reads g q w r) :
      Reads g p (c :: w) r

/-- Some path spells the word from `p` to an accepting node. -/
def AcceptsFrom (g : Graph) (p : NodeId) (w : List Codepoint) : Prop :=
  ∃ q, g.Reads p w q ∧ g.isAccept q = true

/-- **Some path spells the word** from the initial node to an accepting node. -/
def Accepts (g : Graph) (w : List Codepoint) : Prop := ∃ p, g.initial = some p ∧ g.AcceptsFrom p w

@[simp] theorem reads_nil_iff {g : Graph} {p q : NodeId} : g.Reads p [] q ↔ p = q := by
  constructor
  · intro h
    cases h
    rfl
  · rintro rfl
    exact .nil p

theorem reads_cons_iff {g : Graph} {p r : NodeId} {c : Codepoint} {w : List Codepoint} :
    g.Reads p (c :: w) r ↔ ∃ q ∈ g.targets p c, g.Reads q w r := by
  constructor
  · intro h
    cases h with
    | cons arrow carries rest => exact ⟨_, mem_targets.2 ⟨_, arrow, carries⟩, rest⟩
  · rintro ⟨q, hq, rest⟩
    obtain ⟨i, arrow, carries⟩ := mem_targets.1 hq
    exact .cons arrow carries rest

theorem reads_append_iff {g : Graph} {p r : NodeId} {v w : List Codepoint} :
    g.Reads p (v ++ w) r ↔ ∃ q, g.Reads p v q ∧ g.Reads q w r := by
  induction v generalizing p with
  | nil => simp
  | cons c v ih =>
    simp only [List.cons_append, reads_cons_iff, ih]
    constructor
    · rintro ⟨s, hs, q, hv, hw⟩
      exact ⟨q, ⟨s, hs, hv⟩, hw⟩
    · rintro ⟨q, ⟨s, hs, hv⟩, hw⟩
      exact ⟨s, hs, q, hv, hw⟩

/-! ### The set simulation -/

theorem runFrom_eq_true_iff {g : Graph} {places : List NodeId} {w : List Codepoint} :
    g.runFrom places w = true ↔ ∃ p ∈ places, g.AcceptsFrom p w := by
  induction w generalizing places with
  | nil => simp [runFrom, AcceptsFrom]
  | cons c w ih =>
    simp only [runFrom, ih, mem_advance, AcceptsFrom, reads_cons_iff]
    constructor
    · rintro ⟨q, ⟨p, hp, hq⟩, r, hr, ha⟩
      exact ⟨p, hp, r, ⟨q, hq, hr⟩, ha⟩
    · rintro ⟨p, hp, r, ⟨q, hq, hr⟩, ha⟩
      exact ⟨q, ⟨p, hp, hq⟩, r, hr, ha⟩

/-- From nowhere nothing is accepted, so the simulation may stop once no place is left. -/
theorem runFrom_nil {g : Graph} (w : List Codepoint) : g.runFrom [] w = false := by
  rw [Bool.eq_false_iff, ne_eq, runFrom_eq_true_iff]
  simp

/-- **The simulation decides acceptance.** -/
theorem run_eq_true_iff {g : Graph} {w : List Codepoint} : g.run w = true ↔ g.Accepts w := by
  unfold run Accepts
  cases h : g.initial with
  | none => simp
  | some i => simp [runFrom_eq_true_iff]

end Graph

end SymbolAutomata
