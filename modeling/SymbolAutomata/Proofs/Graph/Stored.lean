/-
  SymbolAutomata/Proofs/Graph/Stored.lean
  =======================================
  **How often a move is stored.**

  The arrows of a graph do not tell how many arcs there are, and several arcs may say
  the same.  The exits of a node do: a new arc adds at most one exit and leaves all
  others where they are (`exits_connect_cases`), a removed arc takes one away
  (`count_exits_removeArc_of_ne`).  So labels that no edit is about are spared: what is
  stored of them stays stored, as often as it was (`Spares`).  Both the destinations
  over a codepoint and the sorted moves are read off the exits (`targets_eq_exits`,
  `moves_eq_exits`).
-/
import SymbolAutomata.Proofs.Graph.Trim

namespace SymbolAutomata

namespace Graph

variable {g h k : Graph} {p q r : NodeId} {i : Interval} {m : Move} {keep : Interval → Prop}

/-! ### Read off the exits -/

theorem targets_eq_exits (g : Graph) (p : NodeId) (c : Codepoint) :
    g.targets p c = ((g.exits p).filter (·.1.contains c)).map (·.2) := by
  rw [exits, List.filter_map, List.map_map]
  rfl

theorem moves_eq_exits (g : Graph) (p : NodeId) : g.moves p = arrange Move.precedes (g.exits p) :=
  rfl

/-! ### New arcs -/

/-- **A new arc adds one exit in front**, or none. -/
theorem exits_connect_cases (g : Graph) (p : NodeId) (i : Interval) (q r : NodeId) :
    (g.connect p i q).exits r = g.exits r ∨
      (r = p ∧ (g.connect p i q).exits r = (i, q) :: g.exits r) := by
  by_cases hr : r = p
  · subst hr
    by_cases hends : g.contains r = true ∧ g.contains q = true
    · by_cases hold : (i, q) ∈ g.exits r
      · refine Or.inl ?_
        rw [connect, if_pos (hasArc_iff.2 (mem_exits.1 hold))]
      · exact Or.inr ⟨rfl, exits_connect_self hends hold⟩
    · refine Or.inl (exits_congr ?_ r)
      unfold connect addArc
      rw [dif_neg hends, ite_self]
  · exact Or.inl (exits_connect_ne hr)

theorem count_exits_connect_of_ne (h : (r, m) ≠ (p, i, q)) :
    ((g.connect p i q).exits r).count m = (g.exits r).count m := by
  rcases exits_connect_cases g p i q r with heq | ⟨rfl, heq⟩
  · rw [heq]
  · rw [heq, List.count_cons_of_ne]
    rintro rfl
    exact h rfl

/-! ### Removed arcs -/

theorem count_exits_removeArc_of_ne {arc : Arc}
    (h : (r, m) ≠ (arc.source, arc.label, arc.target)) :
    ((g.removeArc arc).exits r).count m = (g.exits r).count m := by
  by_cases hmem : arc ∈ g.arcs
  · have hperm : g.arcs.Perm (arc :: (g.removeArc arc).arcs) := by
      rw [arcs_removeArc]
      exact List.perm_cons_erase hmem
    have hexits := ((hperm.filter (·.source = r)).map fun a => (a.label, a.target)).count_eq m
    refine Eq.trans ?_ hexits.symm
    by_cases hr : arc.source = r
    · -- the arc leaves `r`, but with another label or for another node
      rw [List.filter_cons_of_pos (by simpa using hr), List.map_cons, List.count_cons_of_ne]
      · rfl
      · rintro rfl
        exact h (Prod.ext hr.symm rfl)
    · rw [List.filter_cons_of_neg (by simpa using hr)]
      rfl
  · rw [removeArc, if_neg hmem]

/-! ### Spared labels -/

/-- **Labels are spared**: what is stored of them stays stored, as often as it was. -/
def Spares (keep : Interval → Prop) (g h : Graph) : Prop :=
  ∀ p m, keep m.1 → m ∈ g.exits p → (h.exits p).count m = (g.exits p).count m

theorem Spares.refl (keep : Interval → Prop) (g : Graph) : Spares keep g g := fun _ _ _ _ => rfl

theorem Spares.trans (hgh : Spares keep g h) (hhk : Spares keep h k) : Spares keep g k := by
  intro p m hkeep hm
  have hcount := hgh p m hkeep hm
  refine (hhk p m hkeep ?_).trans hcount
  rw [← List.count_pos_iff, hcount, List.count_pos_iff]
  exact hm

/-- What every round spares, all rounds spare. -/
theorem Spares.foldl {α β : Type} (view : β → Graph) {round : β → α → β} (items : List α)
    (hround : ∀ b, ∀ x ∈ items, Spares keep (view b) (view (round b x))) (b : β) :
    Spares keep (view b) (view (items.foldl round b)) :=
  List.foldlRecOn (motive := fun c => Spares keep (view b) (view c)) items _
    (Spares.refl keep (view b)) fun c hc x hx => hc.trans (hround c x hx)

/-- A new arc is not stored again where there is one like it. -/
theorem spares_connect (keep : Interval → Prop) (g : Graph) (p : NodeId) (i : Interval)
    (q : NodeId) : Spares keep g (g.connect p i q) := by
  intro r m _ hm
  by_cases heq : (r, m) = (p, i, q)
  · obtain ⟨rfl, rfl⟩ := Prod.mk.inj heq
    rw [connect, if_pos (hasArc_iff.2 (mem_exits.1 hm))]
  · exact count_exits_connect_of_ne heq

theorem spares_connectAll (keep : Interval → Prop) (g : Graph)
    (arrows : List (NodeId × Interval × NodeId)) : Spares keep g (g.connectAll arrows) :=
  Spares.foldl (fun g => g) arrows (fun g _ _ => spares_connect keep g _ _ _) g

theorem spares_removeArc {arc : Arc} (harc : ¬ keep arc.label) :
    Spares keep g (g.removeArc arc) := by
  intro r m hkeep _
  refine count_exits_removeArc_of_ne ?_
  intro heq
  obtain ⟨-, rfl⟩ := Prod.mk.inj heq
  exact harc hkeep

end Graph

end SymbolAutomata
