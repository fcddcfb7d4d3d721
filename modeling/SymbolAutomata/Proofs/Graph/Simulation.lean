/-
  SymbolAutomata/Proofs/Graph/Simulation.lean
  ===========================================
  **Comparing graphs node by node.**

  A relation between the nodes of two graphs is a *simulation* if every step of
  the first graph over a codepoint of interest can be answered by a step of the
  second one, and related nodes accept together.  Paths are then carried over
  step by step (`Simulates.reads`), and with them acceptance
  (`Simulates.accepts`).  Two simulations, one in each direction, give equal
  languages.

  The codepoints of interest are a parameter: graphs that are cut down to the
  codepoints of symbols agree with the originals on words of symbols only.
-/
import SymbolAutomata.Graph.Language
import SymbolAutomata.Graph.Lemmas

namespace SymbolAutomata

namespace Graph

/-! ### Simulations -/

/-- **Steps of `g` are answered by steps of `h`**, as far as they go over codepoints that are
    `spoken`, and where `g` accepts `h` does. -/
structure Simulates (h g : Graph) (spoken : Codepoint → Prop) (R : NodeId → NodeId → Prop) :
    Prop where
  accept : ∀ {p q}, R p q → g.isAccept p = true → h.isAccept q = true
  step : ∀ {p q p' c}, R p q → spoken c → p' ∈ g.targets p c → ∃ q' ∈ h.targets q c, R p' q'

variable {g h : Graph} {spoken : Codepoint → Prop} {R : NodeId → NodeId → Prop}

theorem Simulates.reads (sim : Simulates h g spoken R) {p q p' : NodeId} {w : List Codepoint}
    (hR : R p q) (hw : ∀ c ∈ w, spoken c) (path : g.Reads p w p') :
    ∃ q', h.Reads q w q' ∧ R p' q' := by
  induction w generalizing p q with
  | nil =>
    obtain rfl := reads_nil_iff.1 path
    exact ⟨q, .nil q, hR⟩
  | cons c w ih =>
    obtain ⟨r, hr, rest⟩ := reads_cons_iff.1 path
    obtain ⟨s, hs, hrs⟩ := sim.step hR (hw c (List.mem_cons_self ..)) hr
    obtain ⟨q', hq', hR'⟩ := ih hrs (fun d hd => hw d (List.mem_cons_of_mem _ hd)) rest
    exact ⟨q', reads_cons_iff.2 ⟨s, hs, hq'⟩, hR'⟩

theorem Simulates.acceptsFrom (sim : Simulates h g spoken R) {p q : NodeId} {w : List Codepoint}
    (hR : R p q) (hw : ∀ c ∈ w, spoken c) (hacc : g.AcceptsFrom p w) : h.AcceptsFrom q w := by
  obtain ⟨p', path, hp'⟩ := hacc
  obtain ⟨q', path', hR'⟩ := sim.reads hR hw path
  exact ⟨q', path', sim.accept hR' hp'⟩

/-- **Simulations in both directions** leave no difference between related nodes. -/
theorem acceptsFrom_iff_of_simulates (forth : Simulates h g spoken R)
    (back : Simulates g h spoken fun q p => R p q) {p q : NodeId} {w : List Codepoint}
    (hR : R p q) (hw : ∀ c ∈ w, spoken c) : g.AcceptsFrom p w ↔ h.AcceptsFrom q w :=
  ⟨forth.acceptsFrom hR hw, back.acceptsFrom hR hw⟩

theorem reads_congr_targets (dest : ∀ p q c, q ∈ g.targets p c ↔ q ∈ h.targets p c)
    {p q : NodeId} {w : List Codepoint} : g.Reads p w q ↔ h.Reads p w q := by
  induction w generalizing p with
  | nil => rw [reads_nil_iff, reads_nil_iff]
  | cons c w ih => simp only [reads_cons_iff, dest, ih]

theorem acceptsFrom_congr_targets (accept : ∀ n, g.isAccept n = h.isAccept n)
    (dest : ∀ p q c, q ∈ g.targets p c ↔ q ∈ h.targets p c) {p : NodeId} {w : List Codepoint} :
    g.AcceptsFrom p w ↔ h.AcceptsFrom p w := by
  simp only [AcceptsFrom, reads_congr_targets dest, accept]

/-! ### Acceptance, one step at a time -/

theorem acceptsFrom_nil_iff {p : NodeId} : g.AcceptsFrom p [] ↔ g.isAccept p = true := by
  simp [AcceptsFrom]

theorem acceptsFrom_cons_iff {p : NodeId} {c : Codepoint} {w : List Codepoint} :
    g.AcceptsFrom p (c :: w) ↔ ∃ q ∈ g.targets p c, g.AcceptsFrom q w := by
  simp only [AcceptsFrom, reads_cons_iff]
  constructor
  · intro h
    rcases h with ⟨r, ⟨q, hq, path⟩, hr⟩
    exact ⟨q, hq, r, path, hr⟩
  · intro h
    rcases h with ⟨q, hq, r, path, hr⟩
    exact ⟨r, ⟨q, hq, path⟩, hr⟩

theorem acceptsFrom_append_iff {p : NodeId} {v w : List Codepoint} :
    g.AcceptsFrom p (v ++ w) ↔ ∃ q, g.Reads p v q ∧ g.AcceptsFrom q w := by
  simp only [AcceptsFrom, reads_append_iff]
  constructor
  · intro h
    rcases h with ⟨r, ⟨q, hv, hw⟩, hr⟩
    exact ⟨q, hv, r, hw, hr⟩
  · intro h
    rcases h with ⟨q, hv, r, hw, hr⟩
    exact ⟨r, ⟨q, hv, hw⟩, hr⟩

theorem Reads.contains {p q : NodeId} {w : List Codepoint} (path : g.Reads p w q)
    (hp : g.contains p = true) : g.contains q = true := by
  induction path with
  | nil _ => exact hp
  | cons arrow _ _ ih => exact ih arrow.contains_target

theorem accepts_iff_of_initial {i : NodeId} {w : List Codepoint} (hi : g.initial = some i) :
    g.Accepts w ↔ g.AcceptsFrom i w := by
  simp [Accepts, hi]

theorem not_accepts_of_initial (hi : g.initial = none) {w : List Codepoint} : ¬ g.Accepts w := by
  simp [Accepts, hi]

/-- What holds of the codepoints of all moves holds of those of accepted words. -/
theorem forall_mem_of_acceptsFrom {P : Codepoint → Prop}
    (h : ∀ p q c, q ∈ g.targets p c → P c) {p : NodeId} {w : List Codepoint}
    (hacc : g.AcceptsFrom p w) : ∀ c ∈ w, P c := by
  induction w generalizing p with
  | nil => exact fun c hc => absurd hc List.not_mem_nil
  | cons c w ih =>
    obtain ⟨q, hq, hacc⟩ := acceptsFrom_cons_iff.1 hacc
    exact List.forall_mem_cons.2 ⟨h p q c hq, ih hacc⟩

/-- The initial node, if any, is a node of the graph. -/
def Grounded (g : Graph) : Prop := ∀ i, g.initial = some i → g.contains i = true

/-- There is an initial node in the graph. -/
def Rooted (g : Graph) : Prop := ∃ i, g.initial = some i ∧ g.contains i = true

theorem Rooted.grounded (hg : g.Rooted) : g.Grounded := by
  obtain ⟨i, hi, hc⟩ := hg
  intro j hj
  rw [hi] at hj
  exact Option.some.inj hj ▸ hc

@[simp] theorem mem_targets_declare {d : Bool} {p q : NodeId} {c : Codepoint} :
    q ∈ (g.declare d).targets p c ↔ q ∈ g.targets p c := Iff.rfl

@[simp] theorem isAccept_declare (d : Bool) (n : NodeId) :
    (g.declare d).isAccept n = g.isAccept n := rfl

@[simp] theorem reads_declare {d : Bool} {p q : NodeId} {w : List Codepoint} :
    (g.declare d).Reads p w q ↔ g.Reads p w q :=
  reads_congr_targets fun _ _ _ => mem_targets_declare

@[simp] theorem acceptsFrom_declare {d : Bool} {p : NodeId} {w : List Codepoint} :
    (g.declare d).AcceptsFrom p w ↔ g.AcceptsFrom p w :=
  acceptsFrom_congr_targets (isAccept_declare d) fun _ _ _ => mem_targets_declare

@[simp] theorem accepts_declare {d : Bool} {w : List Codepoint} :
    (g.declare d).Accepts w ↔ g.Accepts w := by
  simp only [Accepts, initial_declare, acceptsFrom_declare]

/-- Where there is no node, nothing is accepted. -/
theorem not_acceptsFrom_of_not_contains {p : NodeId} {w : List Codepoint}
    (hp : g.contains p = false) : ¬ g.AcceptsFrom p w := by
  cases w with
  | nil =>
    rw [acceptsFrom_nil_iff]
    intro hacc
    rw [contains_of_isAccept hacc] at hp
    cases hp
  | cons c w =>
    rw [acceptsFrom_cons_iff]
    intro h
    rcases h with ⟨q, hq, -⟩
    obtain ⟨i, arrow, -⟩ := mem_targets.1 hq
    rw [arrow.contains_source] at hp
    cases hp

theorem run_eq_of_accepts_iff {w : List Codepoint} (same : g.Accepts w ↔ h.Accepts w) :
    g.run w = h.run w := by
  rw [Bool.eq_iff_iff, run_eq_true_iff, run_eq_true_iff]
  exact same

end Graph

end SymbolAutomata
