/-
  SymbolAutomata/Proofs/Automaton/Acceptance.lean
  ===============================================
  **The language of an automaton** and what importing a graph does to it.

  An automaton whose declaration is true accepts the words of symbols whose
  codepoints its graph accepts, whichever way it reads them (`language_eq`).  What
  is imported accepts the words of the source over the symbols that were asked for
  and lie inside the clamp (`language_fill`): on these words its nodes move as those
  of the source do, and it accepts no others.
-/
import SymbolAutomata.Automaton.Query
import SymbolAutomata.Proofs.Automaton.Fill
import SymbolAutomata.Proofs.Graph.Proper

namespace SymbolAutomata

namespace Codec

/-- **All symbols of a word have codepoints.** -/
def Spells (w : List Symbol) : Prop := ∀ s ∈ w, IsSymbol s

instance (w : List Symbol) : Decidable (Spells w) :=
  inferInstanceAs (Decidable (∀ s ∈ w, IsSymbol s))

theorem mapM_codepoint_of_spells {w : List Symbol} (hw : Spells w) :
    w.mapM codepoint = .ok (w.map code) := by
  induction w with
  | nil => rfl
  | cons s w ih =>
    rw [Spells, List.forall_mem_cons] at hw
    rw [List.mapM_cons, codepoint_of_isSymbol hw.1, ih hw.2]
    rfl

theorem spells_of_mapM_codepoint {w : List Symbol} {cs : List Codepoint}
    (h : w.mapM codepoint = .ok cs) : Spells w := by
  induction w generalizing cs with
  | nil => exact fun s hs => absurd hs List.not_mem_nil
  | cons s w ih =>
    rw [List.mapM_cons] at h
    cases hs : codepoint s with
    | error f =>
      rw [hs] at h
      cases h
    | ok c =>
      rw [hs] at h
      cases hrest : w.mapM codepoint with
      | error f =>
        rw [hrest] at h
        cases h
      | ok ds =>
        have hsym := (codepoint_eq_ok_iff.1 hs).1
        exact List.forall_mem_cons.2 ⟨hsym, ih hrest⟩

end Codec

namespace Automaton

open SymbolAutomata.Graph

/-! ### Reading words -/

/-- The words that an automaton accepts. -/
def language (a : Automaton) : Language Symbol := {w | a.run w = .ok true}

theorem mem_language {a : Automaton} {w : List Symbol} : w ∈ a.language ↔ a.run w = .ok true :=
  Iff.rfl

/-- An automaton that is not declared deterministic keeps the set of its places. -/
theorem run_eq_graph_run {a : Automaton} (hdet : a.isDeterministic = false) {w : List Symbol}
    (hw : Codec.Spells w) : a.run w = .ok (a.graph.run (w.map Codec.code)) := by
  simp only [run, Codec.mapM_codepoint_of_spells hw, hdet]
  rfl

/-- One that is follows the newest arcs, without looking at the others. -/
theorem run_eq_any_walk {a : Automaton} (hdet : a.isDeterministic = true) {w : List Symbol}
    (hw : Codec.Spells w) :
    a.run w = .ok (a.graph.initial.any (a.graph.walk · (w.map Codec.code))) := by
  simp only [run, Codec.mapM_codepoint_of_spells hw, hdet]
  cases a.graph.initial <;> rfl

/-- **Both ways of reading** agree where the declaration is true. -/
theorem run_of_spells {a : Automaton} (ha : a.graph.Honest) {w : List Symbol}
    (hw : Codec.Spells w) :
    ∃ b, a.run w = .ok b ∧ (b = true ↔ a.graph.Accepts (w.map Codec.code)) := by
  cases hdet : a.isDeterministic with
  | false => exact ⟨_, run_eq_graph_run hdet hw, run_eq_true_iff⟩
  | true => exact ⟨_, run_eq_any_walk hdet hw, (ha hdet).any_walk_iff⟩

theorem spells_of_run {a : Automaton} {w : List Symbol} {b : Bool} (h : a.run w = .ok b) :
    Codec.Spells w := by
  cases hcodes : w.mapM Codec.codepoint with
  | error f =>
    simp only [run, hcodes] at h
    cases h
  | ok cs => exact Codec.spells_of_mapM_codepoint hcodes

/-- **The language of an automaton** is that of its graph, read through the codec. -/
theorem language_eq {a : Automaton} (ha : a.graph.Honest) :
    a.language = clip Codec.IsSymbol (comap Codec.code a.graph.language) := by
  ext w
  rw [mem_language, mem_clip, mem_comap, Graph.mem_language]
  constructor
  · intro h
    have hw := spells_of_run h
    obtain ⟨b, hb, hacc⟩ := run_of_spells ha hw
    rw [h] at hb
    exact ⟨hacc.1 (Except.ok.inj hb).symm, hw⟩
  · intro hfound
    rcases hfound with ⟨hacc, hw⟩
    obtain ⟨b, hb, hiff⟩ := run_of_spells ha hw
    rw [hb, hiff.2 hacc]

/-- Words of symbols are answered, and rightly. -/
theorem run_eq_of_language {a : Automaton} (ha : a.graph.Honest) {w : List Symbol}
    (hw : Codec.Spells w) : ∃ b, a.run w = .ok b ∧ (b = true ↔ w ∈ a.language) := by
  obtain ⟨b, hb, -⟩ := run_of_spells ha hw
  refine ⟨b, hb, ?_⟩
  rw [mem_language, hb]
  exact ⟨fun h => congrArg Except.ok h, Except.ok.inj⟩

/-! ### Imports -/

/-- The symbols that an import keeps. -/
def Kept (lo hi : Codepoint) (symbols : SymbolSet) (s : Symbol) : Prop :=
  Codec.IsSymbol s ∧ s ∈ symbols ∧ lo ≤ Codec.code s ∧ Codec.code s ≤ hi

/-- The codepoint of a symbol lies inside the clamp. -/
def Clamped (a : Automaton) (s : Symbol) : Prop := a.min ≤ Codec.code s ∧ Codec.code s ≤ a.max

instance (a : Automaton) : DecidablePred a.Clamped := fun s =>
  inferInstanceAs (Decidable (a.min ≤ Codec.code s ∧ Codec.code s ≤ a.max))

/-- The automaton has the widest clamp there is. -/
def FullyClamped (a : Automaton) : Prop :=
  a.min = Codec.minCodepoint ∧ a.max = Codec.maxCodepoint

instance (a : Automaton) : Decidable a.FullyClamped :=
  inferInstanceAs (Decidable (a.min = Codec.minCodepoint ∧ a.max = Codec.maxCodepoint))

theorem FullyClamped.clamped {a : Automaton} (ha : a.FullyClamped) {s : Symbol}
    (hs : Codec.IsSymbol s) : a.Clamped s := by
  rw [Clamped, ha.1, ha.2]
  exact ⟨Nat.zero_le _, Codec.code_le_max hs⟩

section Filled

variable {a b : Automaton} {source : Graph} {symbols : SymbolSet}
  {names : List (NodeId × NodeId)} (h : Filled a source symbols names b)

include h

theorem Filled.exists_name {n : NodeId} (hn : n ∈ source.reachable) : ∃ p, (n, p) ∈ names := by
  rwa [← h.keys, mem_map_fst_iff] at hn

theorem Filled.mem_reachable {n p : NodeId} (hp : (n, p) ∈ names) : n ∈ source.reachable := by
  rw [← h.keys]
  exact mem_map_fst_iff.2 ⟨p, hp⟩

theorem Filled.name_inj {m n p : NodeId} (hm : (m, p) ∈ names) (hn : (n, p) ∈ names) : m = n := by
  have hpair := List.inj_on_of_nodup_map h.values hm hn rfl
  exact (Prod.mk.inj hpair).1

/-- **A new node moves as the node it stands for**, inside the imported labels. -/
theorem Filled.mem_targets {n p q : NodeId} {c : Codepoint} (hp : (n, p) ∈ names) :
    q ∈ b.graph.targets p c ↔ ∃ label m, source.Arrow n label m ∧ (m, q) ∈ names ∧
      ∃ i ∈ carriedLabels a.min a.max symbols label, i.contains c = true := by
  simp only [Graph.mem_targets, h.arrow]
  constructor
  · intro hcase
    rcases hcase with ⟨i, old | ⟨k, label, m, hk, harrow, hm, hi⟩, hc⟩
    · have hfresh := h.fresh n p hp
      rw [old.contains_source] at hfresh
      cases hfresh
    · obtain rfl := h.name_inj hp hk
      exact ⟨label, m, harrow, hm, i, hi, hc⟩
  · intro hfound
    rcases hfound with ⟨label, m, harrow, hm, i, hi, hc⟩
    exact ⟨i, Or.inr ⟨n, label, m, hp, harrow, hm, hi⟩, hc⟩

theorem Filled.mem_targets_code {n p q : NodeId} {s : Symbol} (hs : Codec.IsSymbol s)
    (hp : (n, p) ∈ names) : q ∈ b.graph.targets p (Codec.code s) ↔
      Kept a.min a.max symbols s ∧ ∃ m ∈ source.targets n (Codec.code s), (m, q) ∈ names := by
  rw [h.mem_targets hp]
  simp only [mem_carriedLabels_iff hs, Carries, Graph.mem_targets]
  constructor
  · intro hfound
    rcases hfound with ⟨label, m, harrow, hm, hmem, -, hc, hclamp⟩
    exact ⟨⟨hs, hmem, hclamp⟩, m, ⟨label, harrow, hc⟩, hm⟩
  · intro hfound
    rcases hfound with ⟨⟨-, hmem, hclamp⟩, m, ⟨label, harrow, hc⟩, hm⟩
    exact ⟨label, m, harrow, hm, hmem, hs, hc, hclamp⟩

/-- **A new node accepts what its node accepts**, over the symbols that are kept. -/
theorem Filled.acceptsFrom {n p : NodeId} (hp : (n, p) ∈ names) {w : List Symbol}
    (hw : Codec.Spells w) : b.graph.AcceptsFrom p (w.map Codec.code) ↔
      source.AcceptsFrom n (w.map Codec.code) ∧ ∀ s ∈ w, Kept a.min a.max symbols s := by
  induction w generalizing n p with
  | nil =>
    rw [List.map_nil, acceptsFrom_nil_iff, acceptsFrom_nil_iff, h.flagged n p hp]
    exact ⟨fun hacc => ⟨hacc, fun s hs => absurd hs List.not_mem_nil⟩, And.left⟩
  | cons s w ih =>
    rw [Codec.Spells, List.forall_mem_cons] at hw
    rw [List.map_cons, acceptsFrom_cons_iff, acceptsFrom_cons_iff, List.forall_mem_cons]
    constructor
    · intro hfound
      rcases hfound with ⟨q, hq, hacc⟩
      obtain ⟨hkept, m, hm, hq⟩ := (h.mem_targets_code hw.1 hp).1 hq
      obtain ⟨hacc, hrest⟩ := (ih hq hw.2).1 hacc
      exact ⟨⟨m, hm, hacc⟩, hkept, hrest⟩
    · intro hfound
      rcases hfound with ⟨⟨m, hm, hacc⟩, hkept, hrest⟩
      obtain ⟨q, hq⟩ := h.exists_name (mem_reachable_of_mem_targets (h.mem_reachable hp) hm)
      exact ⟨q, (h.mem_targets_code hw.1 hp).2 ⟨hkept, m, hm, hq⟩, (ih hq hw.2).2 ⟨hacc, hrest⟩⟩

theorem Filled.mem_targets_of_old {p q : NodeId} {c : Codepoint} (hp : ∀ n, (n, p) ∉ names) :
    q ∈ b.graph.targets p c ↔ q ∈ a.graph.targets p c := by
  simp only [Graph.mem_targets, h.arrow]
  constructor
  · intro hfound
    rcases hfound with ⟨i, old | ⟨n, -, -, hn, -⟩, hc⟩
    · exact ⟨i, old, hc⟩
    · exact absurd hn (hp n)
  · intro hfound
    rcases hfound with ⟨i, old, hc⟩
    exact ⟨i, Or.inl old, hc⟩

/-- **What is single-valued stays so** when something single-valued is filled in. -/
theorem Filled.singleValued (hsource : source.SingleValued) (ha : a.graph.SingleValued) :
    b.graph.SingleValued := by
  intro p c q r hq hr
  by_cases hnew : ∃ n, (n, p) ∈ names
  · obtain ⟨n, hp⟩ := hnew
    obtain ⟨label₁, m₁, harrow₁, hq, i₁, hi₁, hc₁⟩ := (h.mem_targets hp).1 hq
    obtain ⟨label₂, m₂, harrow₂, hr, i₂, hi₂, hc₂⟩ := (h.mem_targets hp).1 hr
    have hm₁ := Graph.mem_targets.2 ⟨label₁, harrow₁, (contains_of_mem_carriedLabels hi₁ hc₁).1⟩
    have hm₂ := Graph.mem_targets.2 ⟨label₂, harrow₂, (contains_of_mem_carriedLabels hi₂ hc₂).1⟩
    obtain rfl := hsource n c m₁ m₂ hm₁ hm₂
    -- a node has one name
    have hnodup : (names.map (·.1)).Nodup := h.keys ▸ source.reachable_nodup
    have hpair := List.inj_on_of_nodup_map hnodup hq hr rfl
    exact (Prod.mk.inj hpair).2
  · have hold : ∀ n, (n, p) ∉ names := fun n hn => hnew ⟨n, hn⟩
    exact ha p c q r ((h.mem_targets_of_old hold).1 hq) ((h.mem_targets_of_old hold).1 hr)

theorem Filled.honest (hsource : source.Honest) (ha : ∀ p i q, ¬ a.graph.Arrow p i q) :
    b.graph.Honest := by
  intro hdet
  refine h.singleValued (hsource (h.deterministic.symm.trans hdet)) ?_
  intro p c q r hq _
  obtain ⟨i, arrow, -⟩ := Graph.mem_targets.1 hq
  exact absurd arrow (ha p i q)

theorem Filled.accepts (ha : a.graph.initial = none) {w : List Symbol} (hw : Codec.Spells w) :
    b.graph.Accepts (w.map Codec.code) ↔
      source.Accepts (w.map Codec.code) ∧ ∀ s ∈ w, Kept a.min a.max symbols s := by
  by_cases hstart : ∃ i, source.initial = some i ∧ source.contains i = true
  · obtain ⟨i, hi, hc⟩ := hstart
    obtain ⟨p, hp⟩ := h.exists_name (mem_reachable_initial hi hc)
    rw [accepts_iff_of_initial hi, accepts_iff_of_initial (h.started i p hp hi),
      h.acceptsFrom hp hw]
  · have hnone : b.graph.initial = none := by
      rw [h.unstarted, ha]
      intro n p hp hn
      exact hstart ⟨n, hn, mem_nodeIds_of_mem_reachable (h.mem_reachable hp)⟩
    refine iff_of_false (not_accepts_of_initial hnone) ?_
    intro hfound
    rcases hfound with ⟨⟨i, hi, hacc⟩, -⟩
    have hc : source.contains i = false := Bool.eq_false_iff.2 fun hc => hstart ⟨i, hi, hc⟩
    exact not_acceptsFrom_of_not_contains hc hacc

end Filled

/-! ### Importing into a new automaton -/

theorem not_arrow_withClamp {lo hi : Codepoint} {p q : NodeId} {i : Interval} :
    ¬ (withClamp lo hi).graph.Arrow p i q := by
  intro h
  rcases h with ⟨a, ha, -⟩
  cases ha

theorem honest_fill {source : Graph} (h : source.Honest) (lo hi : Codepoint)
    (symbols : SymbolSet) : ((withClamp lo hi).fill source symbols).graph.Honest := by
  obtain ⟨names, hfilled⟩ := filled_fill (withClamp lo hi) source symbols
  exact hfilled.honest h fun _ _ _ => not_arrow_withClamp

/-- **An import accepts the words of the source** over the symbols that are kept. -/
theorem language_fill {source : Graph} (h : source.Honest) (lo hi : Codepoint)
    (symbols : SymbolSet) : ((withClamp lo hi).fill source symbols).language =
      clip (Kept lo hi symbols) (comap Codec.code source.language) := by
  obtain ⟨names, hfilled⟩ := filled_fill (withClamp lo hi) source symbols
  -- the codec keeps codepoints of symbols inside its own bounds anyway
  have hkept : ∀ s, Kept (withClamp lo hi).min (withClamp lo hi).max symbols s ↔
      Kept lo hi symbols s := by
    intro s
    have hlo : (withClamp lo hi).min ≤ Codec.code s ↔ lo ≤ Codec.code s := by
      refine Nat.max_le.trans ⟨And.left, fun hle => ⟨hle, Nat.zero_le _⟩⟩
    constructor
    · intro hfound
      rcases hfound with ⟨hs, hmem, hmin, hmax⟩
      exact ⟨hs, hmem, hlo.1 hmin, (Nat.le_min.1 hmax).1⟩
    · intro hfound
      rcases hfound with ⟨hs, hmem, hmin, hmax⟩
      exact ⟨hs, hmem, hlo.2 hmin, Nat.le_min.2 ⟨hmax, Codec.code_le_max hs⟩⟩
  ext w
  rw [language_eq (honest_fill h lo hi symbols), mem_clip, mem_clip, mem_comap, mem_comap,
    Graph.mem_language, Graph.mem_language]
  constructor
  · intro hfound
    rcases hfound with ⟨hacc, hw⟩
    obtain ⟨hacc, hall⟩ := (hfilled.accepts rfl hw).1 hacc
    exact ⟨hacc, fun s hs => (hkept s).1 (hall s hs)⟩
  · intro hfound
    rcases hfound with ⟨hacc, hall⟩
    have hw : Codec.Spells w := fun s hs => (hall s hs).1
    exact ⟨(hfilled.accepts rfl hw).2 ⟨hacc, fun s hs => (hkept s).2 (hall s hs)⟩, hw⟩

end Automaton

end SymbolAutomata
