/-
  SymbolAutomata/Proofs/Graph/Declared.lean
  =========================================
  **What the operations on graphs declare is true.**

  Most operations declare their result nondeterministic, which is never wrong.  Those
  that declare it deterministic build graphs with one destination at most, and those
  that pass a declaration on never add a second destination where there was one
  (`Reliable.of_targets`).  `Reliable` adds to `Honest` what this rests on, labels
  inside the codec and an initial node that is not dangling.  Every operation keeps
  it, so it holds of whatever is derived from reliable graphs (`Derived.reliable`).
-/
import SymbolAutomata.Proofs.Graph.Complement
import SymbolAutomata.Proofs.Graph.Product

namespace SymbolAutomata

namespace Graph

/-- **A graph whose declaration can be relied on**: what is declared deterministic is, no label
    leaves the codec, and the initial node, if there is one, is a node. -/
structure Reliable (g : Graph) : Prop where
  honest : g.Honest
  encoded : g.Encoded
  grounded : g.Grounded

theorem Proper.reliable {g : Graph} (hg : g.Proper) : g.Reliable :=
  ⟨hg.honest, hg.endsBy, hg.rooted.grounded⟩

/-! ### Fewer arrows -/

section Changes

variable {g h : Graph}

/-- **Losing moves does no harm.** -/
theorem Reliable.of_targets (hg : g.Reliable)
    (hdet : h.deterministic = g.deterministic) (hinitial : h.initial = g.initial)
    (hcontains : ∀ i, g.initial = some i → g.contains i = true → h.contains i = true)
    (htargets : ∀ p q c, q ∈ h.targets p c → q ∈ g.targets p c) : h.Reliable where
  honest hh := (hg.honest (hdet ▸ hh)).of_targets htargets
  encoded := hg.encoded.of_targets fun p q c hq => ⟨p, q, htargets p q c hq⟩
  grounded i hi := by
    rw [hinitial] at hi
    exact hcontains i hi (hg.grounded i hi)

theorem Reliable.reduce (hg : g.Reliable) : g.reduce.Reliable :=
  hg.of_targets (deterministic_reduce g) (initial_reduce g)
    (fun i _ hc => (contains_reduce g i).trans hc) fun _ _ _ => mem_targets_reduce.1

theorem Reliable.removeDead (hg : g.Reliable) : g.removeDead.Reliable :=
  hg.of_targets (deterministic_removeDead g) (initial_removeDead g)
    (fun i _ hc => (contains_removeDead g i).trans hc)
    fun _ _ _ hq => (mem_targets_removeDead.1 hq).1

theorem Reliable.prune (hg : g.Reliable) : g.prune.Reliable :=
  hg.of_targets (deterministic_prune g) (initial_prune g)
    (fun _ hi hc => contains_prune.2 (mem_reachable_initial hi hc))
    fun _ _ _ hq => (mem_targets_prune.1 hq).1

/-! ### More arrows -/

theorem Reliable.splice (hg : g.Reliable) (pairs : List (NodeId × NodeId)) :
    (g.splice pairs).Reliable where
  honest := honest_of_not_deterministic (deterministic_splice g pairs)
  encoded := hg.encoded.splice pairs
  grounded i hi := (contains_splice g pairs i).trans (hg.grounded i ((initial_splice g pairs) ▸ hi))

/-- The sink gets one move over each codepoint that a node has no move over. -/
theorem Reliable.totalize (hg : g.Reliable) : g.totalize.Reliable where
  honest hdet := (hg.honest (deterministic_totalize g ▸ hdet)).totalize hg.encoded
  encoded := hg.encoded.totalize
  grounded i hi := contains_totalize.2 (Or.inr (hg.grounded i (initial_totalize g ▸ hi)))

end Changes

/-! ### New graphs -/

section Operations

variable {a b : Graph}

theorem Reliable.union (ha : a.Reliable) (hb : b.Reliable) : (a.union b).Reliable :=
  ⟨honest_union a b, ha.encoded.union hb.encoded, (rooted_union a b).grounded⟩

theorem Reliable.concatenate (ha : a.Reliable) (hb : b.Reliable) : (a.concatenate b).Reliable :=
  ⟨honest_concatenate a b, ha.encoded.concatenate hb.encoded, (rooted_concatenate a b).grounded⟩

theorem Reliable.star (ha : a.Reliable) : a.star.Reliable :=
  ⟨honest_star a, ha.encoded.star, (rooted_star a).grounded⟩

theorem Reliable.repeatMin (ha : a.Reliable) (least : Nat) : (a.repeatMin least).Reliable :=
  ⟨honest_repeatMin a least, ha.encoded.repeatMin least, (rooted_repeatMin a least).grounded⟩

theorem Reliable.repeatRange (ha : a.Reliable) (least most : Nat) :
    (a.repeatRange least most).Reliable :=
  ⟨honest_repeatRange a least most, ha.encoded.repeatRange least most,
    (rooted_repeatRange a least most).grounded⟩

theorem Reliable.optional (ha : a.Reliable) : a.optional.Reliable :=
  ha.union (Proper.reliable fits_emptyWord)

theorem Reliable.intersection (ha : a.Reliable) (hb : b.Reliable) :
    (a.intersection b).Reliable := by
  refine ⟨honest_intersection ha.honest hb.honest, ?_, ?_⟩
  · unfold Graph.intersection
    split
    · next i j _ _ =>
      show (product a b (i, j)).Encoded
      refine ha.encoded.of_targets fun n m c hm => ?_
      obtain ⟨p, q, p', q', -, ⟨hp, -⟩, -⟩ := mem_targets_product.1 hm
      exact ⟨p, p', hp⟩
    · exact endsBy_emptyLanguage
  · unfold Graph.intersection
    split
    · next i j _ _ =>
      have hhead : (pairsFrom a b (i, j))[0]? = some (i, j) := pairsFrom_head?
      have hstart : 0 < (pairsFrom a b (i, j)).length := (List.getElem?_eq_some_iff.1 hhead).1
      have hroot : (product a b (i, j)).Rooted :=
        ⟨0, rfl, contains_build.2 (by rwa [List.length_map])⟩
      exact hroot.grounded
    · exact rooted_emptyLanguage.grounded

theorem Reliable.determinize (ha : a.Reliable) : a.determinize.Reliable :=
  ⟨fun _ => ha.encoded.singleValued_determinize, ha.encoded.determinize,
    ha.grounded.rooted_determinize.grounded⟩

theorem Reliable.complement (ha : a.Reliable) : a.complement.Reliable := by
  refine ⟨fun _ => ha.encoded.singleValued_complement, ha.encoded.complement, ?_⟩
  have hrooted : a.determinize.totalize.flipped.Rooted := by
    obtain ⟨i, hi, hc⟩ := ha.grounded.rooted_determinize
    refine ⟨i, ?_, ?_⟩
    · rw [initial_flipped, initial_totalize, hi]
    · rw [contains_flipped]
      exact contains_totalize.2 (Or.inr hc)
  obtain ⟨i, hi, -, -, hreach⟩ := hrooted.mem_reachable_removeDead
  have hroot' : a.complement.Rooted :=
    ⟨i, (initial_trimmed _).trans hi, contains_trimmed.2 hreach⟩
  exact hroot'.grounded

theorem Reliable.minimize (ha : a.Reliable) : a.minimize.Reliable := by
  have h := minimal_minimize ha.encoded ha.grounded
  exact ⟨fun _ => h.singleValued, h.encoded, h.rooted.grounded⟩

end Operations

/-! ### All operations -/

/-- **Graphs derived from reliable ones** by any operations, in any order. -/
inductive Derived : Graph → Prop where
  | operand {g : Graph} (hg : g.Reliable) : Derived g
  | union {a b : Graph} (ha : Derived a) (hb : Derived b) : Derived (a.union b)
  | concatenate {a b : Graph} (ha : Derived a) (hb : Derived b) : Derived (a.concatenate b)
  | star {a : Graph} (ha : Derived a) : Derived a.star
  | repeatMin {a : Graph} (ha : Derived a) (least : Nat) : Derived (a.repeatMin least)
  | repeatRange {a : Graph} (ha : Derived a) (least most : Nat) :
      Derived (a.repeatRange least most)
  | optional {a : Graph} (ha : Derived a) : Derived a.optional
  | intersection {a b : Graph} (ha : Derived a) (hb : Derived b) : Derived (a.intersection b)
  | determinize {a : Graph} (ha : Derived a) : Derived a.determinize
  | complement {a : Graph} (ha : Derived a) : Derived a.complement
  | minimize {a : Graph} (ha : Derived a) : Derived a.minimize
  | totalize {a : Graph} (ha : Derived a) : Derived a.totalize
  | splice {a : Graph} (ha : Derived a) (pairs : List (NodeId × NodeId)) : Derived (a.splice pairs)
  | reduce {a : Graph} (ha : Derived a) : Derived a.reduce
  | removeDead {a : Graph} (ha : Derived a) : Derived a.removeDead
  | prune {a : Graph} (ha : Derived a) : Derived a.prune

/-- **Whatever is derived from reliable graphs is reliable.** -/
theorem Derived.reliable {g : Graph} (hg : g.Derived) : g.Reliable := by
  induction hg with
  | operand hg => exact hg
  | union _ _ iha ihb => exact iha.union ihb
  | concatenate _ _ iha ihb => exact iha.concatenate ihb
  | star _ ih => exact ih.star
  | repeatMin _ least ih => exact ih.repeatMin least
  | repeatRange _ least most ih => exact ih.repeatRange least most
  | optional _ ih => exact ih.optional
  | intersection _ _ iha ihb => exact iha.intersection ihb
  | determinize _ ih => exact ih.determinize
  | complement _ ih => exact ih.complement
  | minimize _ ih => exact ih.minimize
  | totalize _ ih => exact ih.totalize
  | splice _ pairs ih => exact ih.splice pairs
  | reduce _ ih => exact ih.reduce
  | removeDead _ ih => exact ih.removeDead
  | prune _ ih => exact ih.prune

end Graph

end SymbolAutomata
