/-
  SymbolAutomata/Proofs/Automaton/Silent.lean
  ===========================================
  **Silent moves that are added one after the other.**

  No automaton has silent moves: adding one to it gives a state what another state has at
  that moment.  What a state gets later is not passed on to those that have copied it before.
  A run of such edits therefore accepts the words that can be read with jumps that go back
  through the edits, from later ones to earlier ones (`Retraces`, `Made.run_silentEdits_iff`),
  and not always all the words that can be read with the pairs as silent moves
  (`not_silent_relayed`).

  An edit that starts where an earlier one has ended is all that can go wrong: if there is
  none, every chain of pairs can be retraced (`retraces_iff_of_pairwise`), and the order of
  the edits does not matter.
-/
import Mathlib.Computability.EpsilonNFA
import SymbolAutomata.Proofs.Automaton.Paths
import SymbolAutomata.Proofs.Automaton.Stepping

namespace SymbolAutomata

open Relation (ReflTransGen)

/-! ### Chains of pairs -/

/-- The pairs form a chain from one item to another. -/
def Links {α : Type} : List (α × α) → α → α → Prop
  | [], x, y => x = y
  | e :: rest, x, y => x = e.1 ∧ Links rest e.2 y

/-- **Going back through a list of pairs**: some of them form a chain in which later ones come
    before earlier ones. -/
def Retraces {α : Type} (pairs : List (α × α)) (x y : α) : Prop :=
  ∃ taken, taken.Sublist pairs.reverse ∧ Links taken x y

/-- Chains of any pairs of the list, in any order. -/
abbrev Chains {α : Type} (pairs : List (α × α)) : α → α → Prop :=
  ReflTransGen fun x y => (x, y) ∈ pairs

section Chains

variable {α : Type} {pairs taken : List (α × α)} {x y z : α} {e : α × α}

theorem links_append {more : List (α × α)} :
    Links (taken ++ more) x z ↔ ∃ y, Links taken x y ∧ Links more y z := by
  induction taken generalizing x with
  | nil => simp only [List.nil_append, Links, exists_eq_left']
  | cons e taken ih => simp only [List.cons_append, Links, ih, and_assoc, exists_and_left]

@[simp] theorem retraces_nil : Retraces [] x y ↔ x = y := by
  unfold Retraces
  simp only [List.reverse_nil, List.sublist_nil, exists_eq_left, Links]

theorem retraces_singleton : Retraces [e] x y ↔ x = y ∨ (x = e.1 ∧ e.2 = y) := by
  unfold Retraces
  simp only [List.reverse_singleton, List.sublist_singleton, or_and_right, exists_or,
    exists_eq_left, Links]

/-- **The later pairs come first.** -/
theorem retraces_append {more : List (α × α)} :
    Retraces (pairs ++ more) x z ↔ ∃ y, Retraces more x y ∧ Retraces pairs y z := by
  unfold Retraces
  simp only [List.reverse_append, List.sublist_append_iff]
  constructor
  · intro h
    obtain ⟨_, ⟨later, earlier, rfl, hlater, hearlier⟩, hlinks⟩ := h
    obtain ⟨y, hfirst, hlast⟩ := links_append.1 hlinks
    exact ⟨y, ⟨later, hlater, hfirst⟩, earlier, hearlier, hlast⟩
  · intro h
    obtain ⟨y, ⟨later, hlater, hfirst⟩, earlier, hearlier, hlast⟩ := h
    exact ⟨later ++ earlier, ⟨later, earlier, rfl, hlater, hearlier⟩,
      links_append.2 ⟨y, hfirst, hlast⟩⟩

theorem Links.chains (h : Links taken x y) (hmem : ∀ e ∈ taken, e ∈ pairs) :
    Chains pairs x y := by
  induction taken generalizing x with
  | nil => exact h ▸ .refl
  | cons e taken ih =>
    obtain ⟨rfl, h⟩ := h
    rw [List.forall_mem_cons] at hmem
    exact .head hmem.1 (ih h hmem.2)

/-- **What can be retraced is a chain.** -/
theorem Retraces.chains (h : Retraces pairs x y) : Chains pairs x y := by
  obtain ⟨taken, hsub, hlinks⟩ := h
  exact hlinks.chains fun e he => List.mem_reverse.1 (hsub.subset he)

/-- An item of a list that none of the chosen ones may come before goes in front of them, unless
    it is the first of them. -/
theorem cons_sublist_of_pairwise {β : Type} {R : β → β → Prop} {xs rest : List β} {a b : β}
    (hxs : xs.Pairwise R) (hsub : (b :: rest).Sublist xs) (ha : a ∈ xs) (hR : ¬ R b a) :
    a = b ∨ (a :: b :: rest).Sublist xs := by
  induction xs with
  | nil => cases ha
  | cons z xs ih =>
    obtain ⟨hz, hxs⟩ := List.pairwise_cons.1 hxs
    rcases List.mem_cons.1 ha with rfl | hlater
    · cases hsub with
      | cons _ hsub => exact Or.inr (hsub.cons_cons a)
      | cons_cons _ hsub => exact Or.inl rfl
    · cases hsub with
      | cons _ hsub => exact (ih hxs hsub hlater).imp_right (.cons z)
      | cons_cons _ hsub => exact absurd (hz a hlater) hR

/-- **If no pair starts where an earlier one ends**, every chain can be retraced. -/
theorem retraces_iff_of_pairwise (h : pairs.Pairwise fun e f => e.2 ≠ f.1) :
    Retraces pairs x y ↔ Chains pairs x y := by
  refine ⟨Retraces.chains, ?_⟩
  intro hchain
  induction hchain using ReflTransGen.head_induction_on with
  | refl => exact ⟨[], List.nil_sublist _, rfl⟩
  | @head x z first _ ih =>
    obtain ⟨taken, hsub, hlinks⟩ := ih
    have hmem : (x, z) ∈ pairs.reverse := List.mem_reverse.2 first
    cases taken with
    | nil => exact ⟨[(x, z)], List.singleton_sublist.2 hmem, rfl, hlinks⟩
    | cons f rest =>
      obtain ⟨rfl, hlinks⟩ := hlinks
      -- the pair that comes next is not later in the list, so this one can go before it
      rcases cons_sublist_of_pairwise (List.pairwise_reverse.2 h) hsub hmem
          (fun hne => hne rfl) with heq | hsub
      · obtain rfl : x = f.1 := congrArg Prod.fst heq
        exact ⟨f :: rest, hsub, rfl, hlinks⟩
      · exact ⟨(x, f.1) :: f :: rest, hsub, rfl, rfl, hlinks⟩

end Chains

/-! ### Reading with jumps -/

/-- **Reading a word with jumps**, one before each letter and one at the end. -/
inductive Travels {σ α : Type} (jump : σ → σ → Prop) (next : σ → α → σ → Prop) :
    σ → List α → σ → Prop where
  | halt {p q : σ} (leap : jump p q) : Travels jump next p [] q
  | read {p q r s : σ} {c : α} {w : List α} (leap : jump p q) (step : next q c r)
      (rest : Travels jump next r w s) : Travels jump next p (c :: w) s

section Travels

variable {σ α : Type} {jump : σ → σ → Prop} {next : σ → α → σ → Prop} {p q : σ} {c : α}
  {w : List α}

theorem travels_nil_iff : Travels jump next p [] q ↔ jump p q := by
  constructor
  · intro h
    cases h with
    | halt leap => exact leap
  · exact .halt

theorem travels_cons_iff : Travels jump next p (c :: w) q ↔
    ∃ m r, jump p m ∧ next m c r ∧ Travels jump next r w q := by
  constructor
  · intro h
    cases h with
    | read leap step rest => exact ⟨_, _, leap, step, rest⟩
  · intro h
    obtain ⟨m, r, leap, step, rest⟩ := h
    exact .read leap step rest

theorem Travels.mono {jump' : σ → σ → Prop} (hjump : ∀ p q, jump p q → jump' p q)
    (h : Travels jump next p w q) : Travels jump' next p w q := by
  induction h with
  | halt leap => exact .halt (hjump _ _ leap)
  | read leap step _ ih => exact .read (hjump _ _ leap) step ih

theorem Travels.head {m : σ} {step : σ → σ → Prop} (first : step p m)
    (h : Travels (ReflTransGen step) next m w q) : Travels (ReflTransGen step) next p w q := by
  cases h with
  | halt leap => exact .halt (.head first leap)
  | read leap next rest => exact .read (.head first leap) next rest

/-- **Automata with silent moves** read with jumps along these. -/
theorem mem_accepts_iff_travels {M : εNFA α σ} : w ∈ M.accepts ↔
    ∃ s ∈ M.start, ∃ t ∈ M.accept,
      Travels (ReflTransGen fun s t => t ∈ M.step s none) (fun s c t => t ∈ M.step s (some c))
        s w t := by
  have hjump : ∀ {s t u : σ} {x : List (Option α)},
      ReflTransGen (fun s t => t ∈ M.step s none) s t → M.IsPath t u x →
        ∃ y, y.reduceOption = x.reduceOption ∧ M.IsPath s u y := by
    intro s t u x hleap path
    induction hleap using ReflTransGen.head_induction_on with
    | refl => exact ⟨x, rfl, path⟩
    | head first _ ih =>
      obtain ⟨y, hy, path⟩ := ih
      exact ⟨none :: y, hy, .cons _ _ _ none y first path⟩
  rw [εNFA.mem_accepts_iff_exists_path]
  constructor
  · intro h
    obtain ⟨s, t, x, hs, ht, rfl, path⟩ := h
    refine ⟨s, hs, t, ht, ?_⟩
    clear hs ht
    induction path with
    | nil s => exact .halt .refl
    | cons m s t a x step _ ih =>
      cases a with
      | none => exact ih.head step
      | some c => exact .read .refl step ih
  · intro h
    obtain ⟨s, hs, t, ht, h⟩ := h
    suffices hpath : ∃ x, x.reduceOption = w ∧ M.IsPath s t x by
      obtain ⟨x, hx, path⟩ := hpath
      exact ⟨s, t, x, hs, ht, hx, path⟩
    clear hs ht
    induction h with
    | halt leap => exact hjump leap (.nil _)
    | @read s m r t c w leap step _ ih =>
      obtain ⟨x, rfl, path⟩ := ih
      exact hjump leap (.cons _ _ _ (some c) x step path)

end Travels

namespace Automaton

open SymbolAutomata.Graph

/-! ### Automata with silent moves -/

/-- **The automaton with pairs of states as silent moves.** -/
def withSilent (a : Automaton) (pairs : List (StateIndex × StateIndex)) :
    εNFA Symbol StateIndex where
  step i
    | none => {j | (i, j) ∈ pairs}
    | some s => {j | a.Relates i s j}
  start := {i | a.initialState = some i}
  accept := {i | i ∈ a.finalStates}

/-- Reading the word with jumps leads from the initial state to a final one. -/
def AcceptsBy (a : Automaton) (jump : StateIndex → StateIndex → Prop) (w : List Symbol) : Prop :=
  ∃ i j, a.initialState = some i ∧ j ∈ a.finalStates ∧ Travels jump a.Relates i w j

theorem mem_accepts_withSilent {a : Automaton} {pairs : List (StateIndex × StateIndex)}
    {w : List Symbol} : w ∈ (a.withSilent pairs).accepts ↔ a.AcceptsBy (Chains pairs) w := by
  rw [mem_accepts_iff_travels]
  constructor
  · intro h
    obtain ⟨i, hi, j, hj, h⟩ := h
    exact ⟨i, j, hi, hj, h⟩
  · intro h
    obtain ⟨i, j, hi, hj, h⟩ := h
    exact ⟨i, hi, j, hj, h⟩

theorem AcceptsBy.mono {a : Automaton} {jump jump' : StateIndex → StateIndex → Prop}
    (hjump : ∀ i j, jump i j → jump' i j) {w : List Symbol} (h : a.AcceptsBy jump w) :
    a.AcceptsBy jump' w := by
  obtain ⟨i, j, hi, hj, h⟩ := h
  exact ⟨i, j, hi, hj, h.mono hjump⟩

/-- The edits that add the pairs as silent moves, one after the other. -/
def silentEdits (pairs : List (StateIndex × StateIndex)) : List Edit :=
  pairs.map fun e => .addSilent e.1 e.2

section Jumps

variable {a : Automaton}

/-! ### Jumps -/

/-- **The second automaton does at once what the first one does after a jump.** -/
structure Jumping (a b : Automaton) (jump : StateIndex → StateIndex → Prop) : Prop where
  initialState : b.initialState = a.initialState
  steps : ∀ i s k, b.Relates i s k ↔ ∃ j, jump i j ∧ a.Relates j s k
  finals : ∀ i, i ∈ b.finalStates ↔ ∃ j, jump i j ∧ j ∈ a.finalStates

theorem Jumping.refl (a : Automaton) : Jumping a a Eq :=
  ⟨rfl, fun _ _ _ => by rw [exists_eq_left'], fun _ => by rw [exists_eq_left']⟩

theorem Jumping.trans {b c : Automaton} {jump jump' : StateIndex → StateIndex → Prop}
    (hab : Jumping a b jump) (hbc : Jumping b c jump') :
    Jumping a c fun i k => ∃ j, jump' i j ∧ jump j k := by
  refine ⟨hbc.initialState.trans hab.initialState, ?_, ?_⟩
  · intro i s k
    simp only [hbc.steps, hab.steps]
    constructor
    · rintro ⟨j, hj, l, hl, hstep⟩
      exact ⟨l, ⟨j, hj, hl⟩, hstep⟩
    · rintro ⟨l, ⟨j, hj, hl⟩, hstep⟩
      exact ⟨j, hj, l, hl, hstep⟩
  · intro i
    simp only [hbc.finals, hab.finals]
    constructor
    · rintro ⟨j, hj, l, hl, hfinal⟩
      exact ⟨l, ⟨j, hj, hl⟩, hfinal⟩
    · rintro ⟨l, ⟨j, hj, hl⟩, hfinal⟩
      exact ⟨j, hj, l, hl, hfinal⟩

/-- **Without jumps the second reads** what the first one reads with them. -/
theorem Jumping.acceptsBy_iff {b : Automaton} {jump : StateIndex → StateIndex → Prop}
    (h : Jumping a b jump) {w : List Symbol} : b.AcceptsBy Eq w ↔ a.AcceptsBy jump w := by
  have hfrom : ∀ i, (∃ k ∈ b.finalStates, Travels Eq b.Relates i w k) ↔
      ∃ k ∈ a.finalStates, Travels jump a.Relates i w k := by
    induction w with
    | nil =>
      intro i
      simp only [travels_nil_iff, exists_eq_right', h.finals]
      exact exists_congr fun _ => and_comm
    | cons s w ih =>
      intro i
      simp only [travels_cons_iff]
      constructor
      · rintro ⟨k, hk, _, r, rfl, hstep, rest⟩
        obtain ⟨j, hj, hstep⟩ := (h.steps i s r).1 hstep
        obtain ⟨l, hl, rest⟩ := (ih r).1 ⟨k, hk, rest⟩
        exact ⟨l, hl, j, r, hj, hstep, rest⟩
      · rintro ⟨l, hl, j, r, hj, hstep, rest⟩
        obtain ⟨k, hk, rest⟩ := (ih r).2 ⟨l, hl, rest⟩
        exact ⟨k, hk, i, r, rfl, (h.steps i s r).2 ⟨j, hj, hstep⟩, rest⟩
  unfold AcceptsBy
  rw [h.initialState]
  simp only [exists_and_left]
  exact exists_congr fun i => and_congr_right fun _ => hfrom i

/-- **The answer of an automaton**, by the steps of its states. -/
theorem InStep.run_eq_true_iff (ha : a.InStep) (hroot : a.graph.Grounded)
    (hflag : a.graph.Honest) {w : List Symbol} : a.run w = .ok true ↔ a.AcceptsBy Eq w := by
  have hfrom : ∀ (i : StateIndex) (p : NodeId), a.states[i]? = some p →
      (a.graph.AcceptsFrom p (w.map Codec.code) ∧ Codec.Spells w ↔
        ∃ k ∈ a.finalStates, Travels Eq a.Relates i w k) := by
    induction w with
    | nil =>
      intro i p hi
      simp only [travels_nil_iff, exists_eq_right', mem_finalStates, hi, Option.some.injEq,
        exists_eq_left', List.map_nil, acceptsFrom_nil_iff]
      exact and_iff_left fun s hs => absurd hs List.not_mem_nil
    | cons s w ih =>
      intro i p hi
      rw [List.map_cons, acceptsFrom_cons_iff, Codec.Spells, List.forall_mem_cons]
      simp only [travels_cons_iff, ha.relates_iff]
      constructor
      · rintro ⟨⟨q, hq, hacc⟩, hs, hw⟩
        obtain ⟨j, hj⟩ := ha.exists_index_of_mem_targets hq
        obtain ⟨k, hk, rest⟩ := (ih j q hj).1 ⟨hacc, hw⟩
        exact ⟨k, hk, i, j, rfl, ⟨hs, p, q, hi, hj, hq⟩, rest⟩
      · rintro ⟨k, hk, _, j, rfl, ⟨hs, p', q, hi', hj, hq⟩, rest⟩
        obtain rfl := Option.some.inj (hi.symm.trans hi')
        obtain ⟨hacc, hw⟩ := (ih j q hj).2 ⟨k, hk, rest⟩
        exact ⟨⟨q, hq, hacc⟩, hs, hw⟩
  rw [← mem_language, language_eq hflag, mem_clip, mem_comap, Graph.mem_language]
  constructor
  · rintro ⟨⟨p, hp, hacc⟩, hw⟩
    obtain ⟨i, hi⟩ := ha.exists_index (hroot p hp)
    obtain ⟨k, hk, h⟩ := (hfrom i p hi).1 ⟨hacc, hw⟩
    exact ⟨i, k, Option.bind_eq_some_iff.2 ⟨p, hp, ha.indexOf?_eq_some_iff.2 hi⟩, hk, h⟩
  · rintro ⟨i, k, hinitial, hk, h⟩
    obtain ⟨p, hp, hindex⟩ := Option.bind_eq_some_iff.1 hinitial
    obtain ⟨hacc, hw⟩ := (hfrom i p (ha.indexOf?_eq_some_iff.1 hindex)).2 ⟨k, hk, h⟩
    exact ⟨⟨p, hp, hacc⟩, hw⟩

/-! ### Adding silent moves -/

theorem addSilent_value {i j : StateIndex} {p q : NodeId} (hi : a.states[i]? = some p)
    (hj : a.states[j]? = some q) :
    (a.addSilent i j).value = { a with graph := a.graph.splice [(p, q)] } := by
  simp [addSilent, resolveBoth, hi, hj]

theorem leads_single {p q x y : NodeId} :
    Leads (silentNext [(p, q)]) x y ↔ Retraces [(p, q)] x y := by
  rw [retraces_singleton]
  constructor
  · intro h
    induction h with
    | refl x => exact Or.inl rfl
    | step first _ ih =>
      obtain ⟨rfl, rfl⟩ := Prod.mk.inj (List.mem_singleton.1 (mem_silentNext.1 first))
      exact Or.inr ⟨rfl, ih.elim id And.right⟩
  · intro h
    rcases h with rfl | ⟨rfl, rfl⟩
    · exact .refl x
    · exact .step (mem_silentNext.2 (List.mem_singleton_self _)) (.refl _)

/-- The states that a state may jump to are those of the nodes that its node leads to silently. -/
theorem InStep.exists_leads_iff (ha : a.InStep) {i j m : StateIndex} {p q y : NodeId}
    (hi : a.states[i]? = some p) (hj : a.states[j]? = some q) :
    (∃ x, a.states[m]? = some x ∧ Leads (silentNext [(p, q)]) x y) ↔
      ∃ l, Retraces [(i, j)] m l ∧ a.states[l]? = some y := by
  simp only [leads_single, retraces_singleton]
  constructor
  · rintro ⟨x, hm, rfl | ⟨rfl, rfl⟩⟩
    · exact ⟨m, Or.inl rfl, hm⟩
    · exact ⟨j, Or.inr ⟨ha.eq_of_getElem? hm hi, rfl⟩, hj⟩
  · rintro ⟨l, rfl | ⟨rfl, rfl⟩, hl⟩
    · exact ⟨y, hl, Or.inl rfl⟩
    · exact ⟨p, hi, Or.inr ⟨rfl, Option.some.inj (hj.symm.trans hl)⟩⟩

/-- **One edit lets one state do what another one does.** -/
theorem InStep.jumping_addSilent (ha : a.InStep) {i j : StateIndex} (hi : i < a.stateCount)
    (hj : j < a.stateCount) : Jumping a (a.addSilent i j).value (Retraces [(i, j)]) := by
  have hb : (a.addSilent i j).value.InStep := (retains_addSilent i j).continues.inStep ha
  obtain ⟨p, hi⟩ : ∃ p, a.states[i]? = some p := ⟨_, List.getElem?_eq_getElem hi⟩
  obtain ⟨q, hj⟩ : ∃ q, a.states[j]? = some q := ⟨_, List.getElem?_eq_getElem hj⟩
  have hpairs : ∀ e ∈ [(p, q)], a.graph.contains e.1 = true := by
    rw [List.forall_mem_singleton]
    exact ha.contains_of_getElem? hi
  rw [addSilent_value hi hj] at hb ⊢
  refine ⟨?_, ?_, ?_⟩
  · rw [Automaton.initialState, initial_splice]
    rfl
  · intro m s k
    rw [hb.relates_iff]
    simp only [ha.relates_iff, mem_targets_splice hpairs]
    constructor
    · rintro ⟨hs, x, d, hm, hk, y, hlead, hd⟩
      obtain ⟨l, hjump, hl⟩ := (ha.exists_leads_iff hi hj).1 ⟨x, hm, hlead⟩
      exact ⟨l, hjump, hs, y, d, hl, hk, hd⟩
    · rintro ⟨l, hjump, hs, y, d, hl, hk, hd⟩
      obtain ⟨x, hm, hlead⟩ := (ha.exists_leads_iff hi hj).2 ⟨l, hjump, hl⟩
      exact ⟨hs, x, d, hm, hk, y, hlead, hd⟩
  · intro m
    simp only [mem_finalStates, isAccept_splice hpairs]
    constructor
    · rintro ⟨x, hm, y, hlead, hacc⟩
      obtain ⟨l, hjump, hl⟩ := (ha.exists_leads_iff hi hj).1 ⟨x, hm, hlead⟩
      exact ⟨l, hjump, y, hl, hacc⟩
    · rintro ⟨l, hjump, y, hl, hacc⟩
      obtain ⟨x, hm, hlead⟩ := (ha.exists_leads_iff hi hj).2 ⟨l, hjump, hl⟩
      exact ⟨x, hm, y, hlead, hacc⟩

theorem honest_addSilent {i j : StateIndex} (hi : i < a.stateCount) (hj : j < a.stateCount) :
    (a.addSilent i j).value.graph.Honest := by
  rw [addSilent_value (List.getElem?_eq_getElem hi) (List.getElem?_eq_getElem hj)]
  exact honest_of_not_deterministic rfl

/-- The pairs are pairs of states. -/
def HasStates (a : Automaton) (pairs : List (StateIndex × StateIndex)) : Prop :=
  ∀ e ∈ pairs, e.1 < a.stateCount ∧ e.2 < a.stateCount

instance (a : Automaton) (pairs : List (StateIndex × StateIndex)) :
    Decidable (a.HasStates pairs) :=
  inferInstanceAs (Decidable (∀ e ∈ pairs, e.1 < a.stateCount ∧ e.2 < a.stateCount))

theorem HasStates.addSilent {pairs : List (StateIndex × StateIndex)} (h : a.HasStates pairs)
    (i j : StateIndex) : (a.addSilent i j).value.HasStates pairs := by
  unfold HasStates stateCount
  rw [(retains_addSilent i j).states]
  exact h

/-- **A run of edits lets each state do what those do that it retraces.** -/
theorem InStep.jumping_silentEdits (ha : a.InStep) {pairs : List (StateIndex × StateIndex)}
    (hpairs : a.HasStates pairs) : Jumping a (a.after (silentEdits pairs)) (Retraces pairs) := by
  induction pairs generalizing a with
  | nil =>
    have hnone : Retraces [] = (Eq : StateIndex → StateIndex → Prop) := by
      funext i j
      exact propext retraces_nil
    rw [hnone]
    exact Jumping.refl a
  | cons e pairs ih =>
    obtain ⟨⟨hi, hj⟩, hrest⟩ := List.forall_mem_cons.1 hpairs
    have hfirst := ha.jumping_addSilent hi hj
    have hnext : (a.addSilent e.1 e.2).value.InStep :=
      (retains_addSilent e.1 e.2).continues.inStep ha
    have hsplit : Retraces (e :: pairs) =
        fun i k => ∃ j, Retraces pairs i j ∧ Retraces [e] j k := by
      funext i k
      rw [← List.singleton_append, retraces_append]
    rw [hsplit]
    exact hfirst.trans (ih hnext (HasStates.addSilent hrest e.1 e.2))

theorem honest_silentEdits {pairs : List (StateIndex × StateIndex)} (hpairs : a.HasStates pairs)
    (hflag : a.graph.Honest ∨ pairs ≠ []) : (a.after (silentEdits pairs)).graph.Honest := by
  induction pairs generalizing a with
  | nil => exact hflag.resolve_right fun hne => hne rfl
  | cons e pairs ih =>
    obtain ⟨⟨hi, hj⟩, hrest⟩ := List.forall_mem_cons.1 hpairs
    exact ih (HasStates.addSilent hrest e.1 e.2) (Or.inl (honest_addSilent hi hj))

/-- **The language after a run of edits.** -/
theorem Made.run_silentEdits_iff (ha : a.Made) {pairs : List (StateIndex × StateIndex)}
    (hpairs : a.HasStates pairs) (hflag : a.graph.Honest ∨ pairs ≠ []) {w : List Symbol} :
    (a.after (silentEdits pairs)).run w = .ok true ↔ a.AcceptsBy (Retraces pairs) w := by
  have hb := ha.built.after (silentEdits pairs)
  rw [hb.inStep.run_eq_true_iff hb.sound.grounded (honest_silentEdits hpairs hflag)]
  exact (ha.built.inStep.jumping_silentEdits hpairs).acceptsBy_iff

theorem Made.run_silentEdits_iff_of_pairwise (ha : a.Made)
    {pairs : List (StateIndex × StateIndex)} (hpairs : a.HasStates pairs)
    (hflag : a.graph.Honest ∨ pairs ≠ []) (horder : pairs.Pairwise fun e f => e.2 ≠ f.1)
    {w : List Symbol} :
    (a.after (silentEdits pairs)).run w = .ok true ↔ w ∈ (a.withSilent pairs).accepts := by
  have hjump : Retraces pairs = Chains pairs := by
    funext i j
    exact propext (retraces_iff_of_pairwise horder)
  rw [ha.run_silentEdits_iff hpairs hflag, mem_accepts_withSilent, hjump]

/-- **Silent moves that are added one after the other.**  Let some pairs of states be added to an
    automaton as silent moves, in the order of a list.  An empty list changes nothing; let the
    declaration be true then.  Words of symbols are answered, and a word is accepted just when it
    can be read with jumps that go back through the list.  No word is accepted that the automaton
    with the pairs as silent moves does not accept; and it accepts the same words if no pair starts
    where an earlier one has ended, so that two such orders of the pairs make no difference. -/
theorem Made.silentEdits_retrace (ha : a.Made) {pairs : List (StateIndex × StateIndex)}
    (hpairs : a.HasStates pairs) :
    (pairs = [] → a.after (silentEdits pairs) = a) ∧
      (a.graph.Honest ∨ pairs ≠ [] →
        (∀ w, Codec.Spells w → ∃ b, (a.after (silentEdits pairs)).run w = .ok b) ∧
        (∀ w, (a.after (silentEdits pairs)).run w = .ok true ↔ a.AcceptsBy (Retraces pairs) w) ∧
        (∀ w, (a.after (silentEdits pairs)).run w = .ok true → w ∈ (a.withSilent pairs).accepts) ∧
        (pairs.Pairwise (fun e f => e.2 ≠ f.1) →
          (∀ w, (a.after (silentEdits pairs)).run w = .ok true ↔
            w ∈ (a.withSilent pairs).accepts) ∧
          ∀ others, others.Perm pairs → others.Pairwise (fun e f => e.2 ≠ f.1) →
            ∀ w, (a.after (silentEdits others)).run w = .ok true ↔
              (a.after (silentEdits pairs)).run w = .ok true)) := by
  refine ⟨?_, ?_⟩
  · rintro rfl
    rfl
  intro hflag
  refine ⟨?_, fun w => ha.run_silentEdits_iff hpairs hflag, ?_, ?_⟩
  · intro w hw
    obtain ⟨b, hrun, -⟩ := run_of_spells (honest_silentEdits hpairs hflag) hw
    exact ⟨b, hrun⟩
  · intro w hrun
    rw [ha.run_silentEdits_iff hpairs hflag] at hrun
    exact mem_accepts_withSilent.2 (hrun.mono fun _ _ => Retraces.chains)
  · intro horder
    refine ⟨fun w => ha.run_silentEdits_iff_of_pairwise hpairs hflag horder, ?_⟩
    intro others hperm hothers w
    have hsame : a.withSilent others = a.withSilent pairs := by
      unfold withSilent
      simp only [hperm.mem_iff]
    have hstates : a.HasStates others := fun e he => hpairs e (hperm.mem_iff.1 he)
    have hdeclared : a.graph.Honest ∨ others ≠ [] := by
      refine hflag.imp_right fun hne heq => hne ?_
      exact (heq ▸ hperm).nil_eq.symm
    rw [ha.run_silentEdits_iff_of_pairwise hstates hdeclared hothers, hsame,
      ha.run_silentEdits_iff_of_pairwise hpairs hflag horder]

end Jumps

/-- The arrow that is read starts two silent moves away from the initial state. -/
def relayed : Automaton :=
  empty.after
    [.addState, .addState, .addState, .addState, .setInitial 0, .setFinal [3],
      .addTransition 2 3 [5]]

theorem made_relayed : relayed.Made := Made.after (.withClamp _ _) _

/-- Two of the three pairs form a chain and are added from its end on; the third one may come first
    or last. -/
theorem silentEdits_retrace_relayed :
    let pairs := [(1, 2), (0, 1), (3, 2)]
    relayed.Made ∧ relayed.HasStates pairs ∧ pairs.Pairwise (fun e f => e.2 ≠ f.1) ∧
      (relayed.after (silentEdits pairs)).run [5, 5] = .ok true ∧
      relayed.AcceptsBy (Retraces pairs) [5, 5] ∧ [5, 5] ∈ (relayed.withSilent pairs).accepts ∧
      (relayed.after (silentEdits [(3, 2), (1, 2), (0, 1)])).run [5, 5] = .ok true := by
  intro pairs
  have hpairs : relayed.HasStates pairs := by decide
  have horder : pairs.Pairwise fun e f => e.2 ≠ f.1 := by decide
  have hrun : (relayed.after (silentEdits pairs)).run [5, 5] = .ok true := by decide_cbv
  obtain ⟨-, hretraces, hsilent, hsame⟩ :=
    (made_relayed.silentEdits_retrace hpairs).2 (Or.inr (List.cons_ne_nil _ _))
  have hothers := (hsame horder).2 [(3, 2), (1, 2), (0, 1)] (by decide) (by decide) [5, 5]
  exact ⟨made_relayed, hpairs, horder, hrun, (hretraces _).1 hrun, hsilent _ hrun,
    hothers.2 hrun⟩

/-- Added from the beginning of the chain on, the same two pairs do not add up: what the second one
    gives to its state comes too late for the initial state. -/
theorem not_silent_relayed :
    let pairs := [(0, 1), (1, 2)]
    relayed.Made ∧ relayed.HasStates pairs ∧ [5] ∈ (relayed.withSilent pairs).accepts ∧
      (relayed.after (silentEdits pairs)).run [5] = .ok false ∧
      (relayed.after (silentEdits pairs.reverse)).run [5] = .ok true := by
  intro pairs
  have hsteps : relayed.Relates 2 5 3 := ⟨[3], by decide, by decide⟩
  have hchain : Chains pairs 0 2 := .head (by decide : (0, 1) ∈ pairs) (.single (by decide))
  refine ⟨made_relayed, by decide, ?_, by decide_cbv, by decide_cbv⟩
  exact mem_accepts_withSilent.2 ⟨0, 3, by decide, by decide, .read hchain hsteps (.halt .refl)⟩

end Automaton

end SymbolAutomata
