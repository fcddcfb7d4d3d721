/-
  SymbolAutomata/Proofs/Automaton/Fill.lean
  =========================================
  **What an imported graph is like.**

  `Filled` says what filling does: each reachable node of the source gets a new node
  with the same flag, each of its arrows becomes an arrow for every label that is
  imported, the copy of the initial node becomes the initial one, and the alphabet
  gains the symbols that are carried.  It holds of every fill (`filled_fill`), by
  one lemma for each of the loops that make up a fill: over the new states, over
  the labels of an arrow, over the moves of a node and over the nodes.
-/
import SymbolAutomata.Proofs.Automaton.Labels
import SymbolAutomata.Proofs.Graph.Quotient

namespace SymbolAutomata

namespace Automaton

open SymbolAutomata.Graph

/-! ### New states -/

/-- An automaton with new rejecting states at the end. -/
structure Grown (a b : Automaton) (new : List NodeId) : Prop where
  states : b.states = a.states ++ new
  nodup : new.Nodup
  fresh : ∀ p ∈ new, a.graph.flag? p = none
  flag? : ∀ p, b.graph.flag? p = if p ∈ new then some false else a.graph.flag? p
  arcs : b.graph.arcs = a.graph.arcs
  initial : b.graph.initial = a.graph.initial
  deterministic : b.graph.deterministic = a.graph.deterministic
  alphabet : b.alphabet = a.alphabet
  min : b.min = a.min
  max : b.max = a.max

theorem grown_repeat (a : Automaton) (k : Nat) :
    ∃ new, new.length = k ∧ Grown a (Nat.repeat addState k a) new := by
  induction k with
  | zero => exact ⟨[], rfl, by constructor <;> simp [Nat.repeat]⟩
  | succ k ih =>
    obtain ⟨new, hlength, h⟩ := ih
    have hsucc : Nat.repeat addState (k + 1) a = (Nat.repeat addState k a).addState := rfl
    rw [hsucc]
    have hnext := flag?_nextNode (Nat.repeat addState k a).graph
    generalize Nat.repeat addState k a = b at h hnext
    have hnew : b.graph.nextNode ∉ new := by
      intro hmem
      rw [h.flag?, if_pos hmem] at hnext
      cases hnext
    refine ⟨new ++ [b.graph.nextNode], by simp [hlength], ?_⟩
    refine ⟨?_, ?_, ?_, ?_, ?_, ?_, ?_, h.alphabet, h.min, h.max⟩
    · simp [addState, h.states]
    · exact List.nodup_append.2 ⟨h.nodup, List.nodup_singleton _, by
        rintro p hp q hq rfl
        exact hnew (List.mem_singleton.1 hq ▸ hp)⟩
    · intro p hp
      rcases List.mem_append.1 hp with hp | hp
      · exact h.fresh p hp
      · rw [List.mem_singleton.1 hp]
        rwa [h.flag?, if_neg hnew] at hnext
    · intro p
      show (b.graph.addNode false).flag? p = _
      rw [flag?_addNode, h.flag?]
      by_cases hp : p = b.graph.nextNode
      · simp [hp]
      · simp [hp]
    · exact (arcs_addNode b.graph false).trans h.arcs
    · exact (initial_addNode b.graph false).trans h.initial
    · exact (deterministic_addNode b.graph false).trans h.deterministic

/-! ### The labels of one arrow, the moves of one node -/

theorem insertMany_nil (set : SymbolSet) : set.insertMany ([] : List Symbol) = set := by
  apply Std.ExtTreeSet.ext_mem
  intro s
  rw [Std.ExtTreeSet.mem_insertMany_list]
  simp

theorem fillArc_eq (a : Automaton) (symbols : SymbolSet) (p : NodeId) (label : Interval)
    (q : NodeId) :
    a.fillArc symbols p label q = { a with
      alphabet := a.alphabet.insertMany (carried a.min a.max symbols label)
      graph := a.graph.connectAll
        ((carriedLabels a.min a.max symbols label).map fun i => (p, i, q)) } := by
  unfold fillArc carriedLabels carried
  rw [span?_eq]
  cases spanWithin a.min a.max label with
  | none => simp only [insertMany_nil]; rfl
  | some ends =>
    simp only [connectAll, List.foldl_map]

/-- Fills in the moves of one node, of which the destinations have been renamed. -/
def fillMoves (a : Automaton) (symbols : SymbolSet) (p : NodeId) (moves : List Move) : Automaton :=
  moves.foldl (fun a m => a.fillArc symbols p m.1 m.2) a

/-- The arrows that a list of moves becomes. -/
def filledArrows (lo hi : Codepoint) (symbols : SymbolSet) (p : NodeId) (moves : List Move) :
    List (NodeId × Interval × NodeId) :=
  moves.flatMap fun m => (carriedLabels lo hi symbols m.1).map fun i => (p, i, m.2)

theorem fillMoves_eq (a : Automaton) (symbols : SymbolSet) (p : NodeId) (moves : List Move) :
    a.fillMoves symbols p moves = { a with
      alphabet := (a.fillMoves symbols p moves).alphabet
      graph := a.graph.connectAll (filledArrows a.min a.max symbols p moves) } := by
  induction moves generalizing a with
  | nil => rfl
  | cons m moves ih =>
    have hrest : a.fillMoves symbols p (m :: moves) =
        (a.fillArc symbols p m.1 m.2).fillMoves symbols p moves := rfl
    rw [hrest, ih, fillArc_eq]
    simp only [filledArrows, connectAll, List.flatMap_cons, List.foldl_append]

theorem mem_alphabet_fillMoves {a : Automaton} {symbols : SymbolSet} {p : NodeId}
    {moves : List Move} {s : Symbol} :
    s ∈ (a.fillMoves symbols p moves).alphabet ↔
      s ∈ a.alphabet ∨ ∃ m ∈ moves, s ∈ symbols ∧ Carries a.min a.max m.1 s := by
  induction moves generalizing a with
  | nil => simp [fillMoves]
  | cons m moves ih =>
    have hrest : a.fillMoves symbols p (m :: moves) =
        (a.fillArc symbols p m.1 m.2).fillMoves symbols p moves := rfl
    rw [hrest, ih, fillArc_eq]
    simp only [Std.ExtTreeSet.mem_insertMany_list, List.contains_iff_mem, mem_carried,
      List.mem_cons, exists_eq_or_imp, or_assoc]

/-! ### One node -/

/-- The moves of a node of the source as they lead between new nodes. -/
def renamedMoves (source : Graph) (names : List (NodeId × NodeId)) (n : NodeId) : List Move :=
  (source.moves n).filterMap fun m => (names.lookup m.2).map fun q => (m.1, q)

/-- Gives the new node `p` what node `n` of the source has. -/
def fillNode (a : Automaton) (source : Graph) (symbols : SymbolSet)
    (names : List (NodeId × NodeId)) (e : NodeId × NodeId) : Automaton :=
  let flagged := a.graph.setAccept e.2 (source.isAccept e.1)
  let placed := if source.initial = some e.1 then flagged.setInitial e.2 else flagged
  ({ a with graph := placed }).fillMoves symbols e.2 (renamedMoves source names e.1)

theorem fill_eq (a : Automaton) (source : Graph) (symbols : SymbolSet) :
    a.fill source symbols =
      let grown := Nat.repeat addState source.reachable.length
        { a with graph := a.graph.declare source.deterministic }
      let names := source.reachable.zip (grown.states.drop a.states.length)
      names.foldl (fun a e => a.fillNode source symbols names e) grown := by
  unfold fill
  simp only
  congr 1
  funext b e
  unfold fillNode fillMoves renamedMoves
  rw [List.foldl_filterMap]
  congr 1
  funext c m
  cases List.lookup m.2 _ <;> rfl

/-- **A fill in two passes**: first the new states, then the moves of one node after the other. -/
theorem exists_grown_fill (a : Automaton) (source : Graph) (symbols : SymbolSet) :
    ∃ new grown, new.length = source.reachable.length ∧
      Grown { a with graph := a.graph.declare source.deterministic } grown new ∧
      a.fill source symbols = (source.reachable.zip new).foldl
        (fun a e => a.fillNode source symbols (source.reachable.zip new) e) grown := by
  obtain ⟨new, hlength, hgrown⟩ := grown_repeat
    { a with graph := a.graph.declare source.deterministic } source.reachable.length
  refine ⟨new, _, hlength, hgrown, ?_⟩
  have hnew : (Nat.repeat addState source.reachable.length
      { a with graph := a.graph.declare source.deterministic }).states.drop a.states.length =
        new := by
    rw [hgrown.states, List.drop_left]
  rw [fill_eq]
  simp only [hnew]

theorem renamedMoves_iff {source : Graph} {names : List (NodeId × NodeId)}
    (hkeys : (names.map (·.1)).Nodup) {n q : NodeId} {label : Interval} :
    (label, q) ∈ renamedMoves source names n ↔
      ∃ m, source.Arrow n label m ∧ (m, q) ∈ names := by
  unfold renamedMoves
  simp only [List.mem_filterMap, Option.map_eq_some_iff, Prod.mk.injEq, Prod.exists]
  constructor
  · intro h
    rcases h with ⟨label, m, hm, q, hq, rfl, rfl⟩
    exact ⟨m, mem_moves.1 hm, (lookup_eq_some_iff hkeys).1 hq⟩
  · intro h
    rcases h with ⟨m, hm, hq⟩
    exact ⟨label, m, mem_moves.2 hm, q, (lookup_eq_some_iff hkeys).2 hq, rfl, rfl⟩

section Node

variable {a : Automaton} {source : Graph} {symbols : SymbolSet} {names : List (NodeId × NodeId)}
  {e : NodeId × NodeId}

/-- The graph before the moves of the node are filled in. -/
def placed (a : Automaton) (source : Graph) (e : NodeId × NodeId) : Graph :=
  let flagged := a.graph.setAccept e.2 (source.isAccept e.1)
  if source.initial = some e.1 then flagged.setInitial e.2 else flagged

theorem fillNode_eq : a.fillNode source symbols names e =
    ({ a with graph := a.placed source e }).fillMoves symbols e.2
      (renamedMoves source names e.1) := rfl

theorem flag?_placed (m : NodeId) : (a.placed source e).flag? m =
    if m = e.2 ∧ a.graph.contains e.2 = true then some (source.isAccept e.1)
    else a.graph.flag? m := by
  unfold placed
  split <;> exact flag?_setAccept _ _ _ m

theorem arrow_placed {x y : NodeId} {i : Interval} :
    (a.placed source e).Arrow x i y ↔ a.graph.Arrow x i y := by
  unfold placed
  split <;> exact arrow_setAccept

theorem initial_placed : (a.placed source e).initial =
    if source.initial = some e.1 then some e.2 else a.graph.initial := by
  unfold placed
  split
  · rfl
  · exact initial_setAccept _ _ _

theorem deterministic_placed : (a.placed source e).deterministic = a.graph.deterministic := by
  unfold placed
  split <;> exact deterministic_setAccept _ _ _

theorem flag?_fillNode (m : NodeId) : (a.fillNode source symbols names e).graph.flag? m =
    if m = e.2 ∧ a.graph.contains e.2 = true then some (source.isAccept e.1)
    else a.graph.flag? m := by
  rw [fillNode_eq, fillMoves_eq, flag?_connectAll, flag?_placed]

theorem contains_fillNode (m : NodeId) :
    (a.fillNode source symbols names e).graph.contains m = a.graph.contains m := by
  rw [contains_eq_isSome, flag?_fillNode]
  split
  · next h => rw [h.1, h.2]; rfl
  · rfl

theorem initial_fillNode : (a.fillNode source symbols names e).graph.initial =
    if source.initial = some e.1 then some e.2 else a.graph.initial := by
  rw [fillNode_eq, fillMoves_eq, initial_connectAll, initial_placed]

theorem deterministic_fillNode :
    (a.fillNode source symbols names e).graph.deterministic = a.graph.deterministic := by
  rw [fillNode_eq, fillMoves_eq, deterministic_connectAll, deterministic_placed]

theorem clamp_fillNode : (a.fillNode source symbols names e).min = a.min ∧
    (a.fillNode source symbols names e).max = a.max ∧
      (a.fillNode source symbols names e).states = a.states := by
  rw [fillNode_eq, fillMoves_eq]
  exact ⟨rfl, rfl, rfl⟩

variable (hkeys : (names.map (·.1)).Nodup) (hnames : ∀ e ∈ names, a.graph.contains e.2 = true)

include hkeys

theorem mem_alphabet_fillNode {s : Symbol} :
    s ∈ (a.fillNode source symbols names e).alphabet ↔
      s ∈ a.alphabet ∨ ∃ label m q, source.Arrow e.1 label m ∧ (m, q) ∈ names ∧
        s ∈ symbols ∧ Carries a.min a.max label s := by
  rw [fillNode_eq, mem_alphabet_fillMoves]
  simp only [Prod.exists, renamedMoves_iff hkeys]
  constructor
  · intro h
    rcases h with old | ⟨label, q, ⟨m, harrow, hm⟩, hs⟩
    · exact Or.inl old
    · exact Or.inr ⟨label, m, q, harrow, hm, hs⟩
  · intro h
    rcases h with old | ⟨label, m, q, harrow, hm, hs⟩
    · exact Or.inl old
    · exact Or.inr ⟨label, q, ⟨m, harrow, hm⟩, hs⟩

include hnames

theorem arrow_fillNode (he : e ∈ names) {x y : NodeId} {i : Interval} :
    (a.fillNode source symbols names e).graph.Arrow x i y ↔
      a.graph.Arrow x i y ∨ (x = e.2 ∧ ∃ label m, source.Arrow e.1 label m ∧ (m, y) ∈ names ∧
        i ∈ carriedLabels a.min a.max symbols label) := by
  have hplaced : ∀ m, (a.placed source e).contains m = a.graph.contains m := by
    intro m
    rw [contains_eq_isSome, flag?_placed]
    split
    · next h => rw [h.1, h.2]; rfl
    · rfl
  rw [fillNode_eq, fillMoves_eq]
  show (connectAll (a.placed source e) _).Arrow x i y ↔ _
  rw [arrow_connectAll, arrow_placed, hplaced, hplaced]
  simp only [filledArrows, List.mem_flatMap, List.mem_map, Prod.mk.injEq, Prod.exists,
    renamedMoves_iff hkeys]
  constructor
  · intro hcase
    rcases hcase with old | ⟨-, label, q, ⟨m, harrow, hm⟩, j, hj, rfl, rfl, rfl⟩
    · exact Or.inl old
    · exact Or.inr ⟨rfl, label, m, harrow, hm, hj⟩
  · intro hcase
    rcases hcase with old | ⟨rfl, label, m, harrow, hm, hi⟩
    · exact Or.inl old
    · exact Or.inr ⟨⟨hnames e he, hnames _ hm⟩, label, y, ⟨m, harrow, hm⟩, i, hi, rfl, rfl, rfl⟩

end Node

/-! ### All nodes -/

/-- What filling in the nodes of a list of names does. -/
structure FilledBy (source : Graph) (symbols : SymbolSet) (names ps : List (NodeId × NodeId))
    (a b : Automaton) : Prop where
  states : b.states = a.states
  min : b.min = a.min
  max : b.max = a.max
  deterministic : b.graph.deterministic = a.graph.deterministic
  contains : ∀ p, b.graph.contains p = a.graph.contains p
  flagged : ∀ n p, (n, p) ∈ ps → b.graph.flag? p = some (source.isAccept n)
  unflagged : ∀ p, (∀ n, (n, p) ∉ ps) → b.graph.flag? p = a.graph.flag? p
  started : ∀ n p, (n, p) ∈ ps → source.initial = some n → b.graph.initial = some p
  unstarted : (∀ n p, (n, p) ∈ ps → source.initial ≠ some n) → b.graph.initial = a.graph.initial
  arrow : ∀ x i y, b.graph.Arrow x i y ↔ a.graph.Arrow x i y ∨ ∃ n label m, (n, x) ∈ ps ∧
    source.Arrow n label m ∧ (m, y) ∈ names ∧ i ∈ carriedLabels a.min a.max symbols label
  alphabet : ∀ s, s ∈ b.alphabet ↔ s ∈ a.alphabet ∨ ∃ n p label m q, (n, p) ∈ ps ∧
    source.Arrow n label m ∧ (m, q) ∈ names ∧ s ∈ symbols ∧ Carries a.min a.max label s

theorem filledBy_foldl {source : Graph} {symbols : SymbolSet} {names ps : List (NodeId × NodeId)}
    (hkeys : (names.map (·.1)).Nodup) {a : Automaton}
    (hnames : ∀ e ∈ names, a.graph.contains e.2 = true) (hsub : ∀ e ∈ ps, e ∈ names)
    (hfirst : (ps.map (·.1)).Nodup) (hsecond : (ps.map (·.2)).Nodup) :
    FilledBy source symbols names ps a
      (ps.foldl (fun a e => a.fillNode source symbols names e) a) := by
  induction ps generalizing a with
  | nil => constructor <;> simp
  | cons e ps ih =>
    rw [List.map_cons, List.nodup_cons] at hfirst hsecond
    have he : e ∈ names := hsub e (List.mem_cons_self ..)
    obtain ⟨hmin, hmax, hstates⟩ := @clamp_fillNode a source symbols names e
    have hnames' : ∀ d ∈ names,
        (a.fillNode source symbols names e).graph.contains d.2 = true := by
      intro d hd
      rw [contains_fillNode]
      exact hnames d hd
    have h := ih hnames' (fun d hd => hsub d (List.mem_cons_of_mem _ hd)) hfirst.2 hsecond.2
    rw [List.foldl_cons]
    generalize ps.foldl _ _ = b at h
    obtain ⟨n, p⟩ := e
    -- no later entry has the node or the name of the first
    have hnode : ∀ q, (n, q) ∉ ps := fun q hq => hfirst.1 (mem_map_fst_iff.2 ⟨q, hq⟩)
    have hname : ∀ m, (m, p) ∉ ps := fun m hm => hsecond.1 (mem_map_snd_iff.2 ⟨m, hm⟩)
    refine ⟨h.states.trans hstates, h.min.trans hmin, h.max.trans hmax,
      h.deterministic.trans deterministic_fillNode,
      fun q => (h.contains q).trans (contains_fillNode q), ?_, ?_, ?_, ?_, ?_, ?_⟩
    · intro m q hmem
      rcases List.mem_cons.1 hmem with heq | hmem
      · obtain ⟨rfl, rfl⟩ := Prod.mk.inj heq
        rw [h.unflagged q hname, flag?_fillNode, if_pos ⟨rfl, hnames _ he⟩]
      · exact h.flagged m q hmem
    · intro q hq
      have hqp : q ≠ p := fun heq => hq n (heq ▸ List.mem_cons_self ..)
      rw [h.unflagged q fun m hm => hq m (List.mem_cons_of_mem _ hm), flag?_fillNode,
        if_neg fun hc => hqp hc.1]
    · intro m q hmem hinit
      rcases List.mem_cons.1 hmem with heq | hmem
      · obtain ⟨rfl, rfl⟩ := Prod.mk.inj heq
        have hlater : ∀ k r, (k, r) ∈ ps → source.initial ≠ some k := by
          intro k r hk hinit'
          rw [hinit] at hinit'
          exact hnode r (Option.some.inj hinit' ▸ hk)
        rw [h.unstarted hlater, initial_fillNode, if_pos hinit]
      · exact h.started m q hmem hinit
    · intro hnone
      rw [h.unstarted fun k r hk => hnone k r (List.mem_cons_of_mem _ hk), initial_fillNode,
        if_neg (hnone n p (List.mem_cons_self ..))]
    · intro x i y
      rw [h.arrow, arrow_fillNode hkeys hnames he, hmin, hmax, or_assoc]
      refine or_congr_right ?_
      constructor
      · intro hcase
        rcases hcase with ⟨rfl, label, m, harrow, hm, hi⟩ | ⟨k, label, m, hk, harrow, hm, hi⟩
        · exact ⟨n, label, m, List.mem_cons_self .., harrow, hm, hi⟩
        · exact ⟨k, label, m, List.mem_cons_of_mem _ hk, harrow, hm, hi⟩
      · intro hfound
        rcases hfound with ⟨k, label, m, hk, harrow, hm, hi⟩
        rcases List.mem_cons.1 hk with heq | hk
        · obtain ⟨rfl, rfl⟩ := Prod.mk.inj heq
          exact Or.inl ⟨rfl, label, m, harrow, hm, hi⟩
        · exact Or.inr ⟨k, label, m, hk, harrow, hm, hi⟩
    · intro s
      rw [h.alphabet, mem_alphabet_fillNode hkeys, hmin, hmax, or_assoc]
      refine or_congr_right ?_
      constructor
      · intro hcase
        rcases hcase with ⟨label, m, q, harrow, hm, hs⟩ | ⟨k, r, label, m, q, hk, harrow, hm, hs⟩
        · exact ⟨n, p, label, m, q, List.mem_cons_self .., harrow, hm, hs⟩
        · exact ⟨k, r, label, m, q, List.mem_cons_of_mem _ hk, harrow, hm, hs⟩
      · intro hfound
        rcases hfound with ⟨k, r, label, m, q, hk, harrow, hm, hs⟩
        rcases List.mem_cons.1 hk with heq | hk
        · obtain ⟨rfl, rfl⟩ := Prod.mk.inj heq
          exact Or.inl ⟨label, m, q, harrow, hm, hs⟩
        · exact Or.inr ⟨k, r, label, m, q, hk, harrow, hm, hs⟩

/-- **What filling does**: `names` gives every reachable node of the source its new node. -/
structure Filled (a : Automaton) (source : Graph) (symbols : SymbolSet)
    (names : List (NodeId × NodeId)) (b : Automaton) : Prop where
  keys : names.map (·.1) = source.reachable
  values : (names.map (·.2)).Nodup
  fresh : ∀ n p, (n, p) ∈ names → a.graph.contains p = false
  states : b.states = a.states ++ names.map (·.2)
  min : b.min = a.min
  max : b.max = a.max
  deterministic : b.graph.deterministic = source.deterministic
  contains : ∀ p, b.graph.contains p = true ↔ a.graph.contains p = true ∨ ∃ n, (n, p) ∈ names
  flagged : ∀ n p, (n, p) ∈ names → b.graph.isAccept p = source.isAccept n
  started : ∀ n p, (n, p) ∈ names → source.initial = some n → b.graph.initial = some p
  unstarted : (∀ n p, (n, p) ∈ names → source.initial ≠ some n) → b.graph.initial = a.graph.initial
  arrow : ∀ x i y, b.graph.Arrow x i y ↔ a.graph.Arrow x i y ∨ ∃ n label m, (n, x) ∈ names ∧
    source.Arrow n label m ∧ (m, y) ∈ names ∧ i ∈ carriedLabels a.min a.max symbols label
  alphabet : ∀ s, s ∈ b.alphabet ↔ s ∈ a.alphabet ∨ ∃ n label m, n ∈ source.reachable ∧
    source.Arrow n label m ∧ s ∈ symbols ∧ Carries a.min a.max label s

theorem filled_fill (a : Automaton) (source : Graph) (symbols : SymbolSet) :
    ∃ names, Filled a source symbols names (a.fill source symbols) := by
  obtain ⟨new, grown, hlength, hgrown, hfill⟩ := exists_grown_fill a source symbols
  rw [hfill]
  have hfirst : (source.reachable.zip new).map (·.1) = source.reachable :=
    List.map_fst_zip (Nat.le_of_eq hlength.symm)
  have hsecond : (source.reachable.zip new).map (·.2) = new :=
    List.map_snd_zip (Nat.le_of_eq hlength)
  generalize source.reachable.zip new = names at hfirst hsecond
  have hreach : ∀ n, n ∈ source.reachable ↔ ∃ p, (n, p) ∈ names := by
    intro n
    rw [← hfirst, mem_map_fst_iff]
  have hnamed : ∀ p, p ∈ new ↔ ∃ n, (n, p) ∈ names := by
    intro p
    rw [← hsecond, mem_map_snd_iff]
  have hcontains : ∀ p, grown.graph.contains p = true ↔
      a.graph.contains p = true ∨ ∃ n, (n, p) ∈ names := by
    intro p
    rw [contains_eq_isSome, hgrown.flag?]
    split
    · next hp => exact iff_of_true rfl (Or.inr ((hnamed p).1 hp))
    · next hp =>
      rw [flag?_declare, ← contains_eq_isSome]
      exact ⟨Or.inl, fun h => h.resolve_right fun hn => hp ((hnamed p).2 hn)⟩
  have hkeys : (names.map (·.1)).Nodup := hfirst ▸ source.reachable_nodup
  have hvalues : (names.map (·.2)).Nodup := hsecond ▸ hgrown.nodup
  have h : FilledBy source symbols names names grown _ :=
    filledBy_foldl hkeys (fun e he => (hcontains e.2).2 (Or.inr ⟨e.1, he⟩)) (fun _ he => he) hkeys
      hvalues
  generalize names.foldl _ grown = b at h
  refine ⟨names, hfirst, hvalues, ?_, ?_, h.min.trans hgrown.min, h.max.trans hgrown.max,
    h.deterministic.trans hgrown.deterministic, ?_, ?_, h.started, ?_, ?_, ?_⟩
  · intro n p hp
    have hnone := hgrown.fresh p ((hnamed p).2 ⟨n, hp⟩)
    rw [flag?_declare] at hnone
    rw [contains_eq_isSome, hnone]
    rfl
  · rw [h.states, hgrown.states, hsecond]
  · intro p
    rw [h.contains, hcontains]
  · intro n p hp
    rw [isAccept, h.flagged n p hp]
    rfl
  · intro hnone
    rw [h.unstarted hnone, hgrown.initial]
    rfl
  · intro x i y
    rw [h.arrow, arrow_congr hgrown.arcs, hgrown.min, hgrown.max]
    rfl
  · intro s
    rw [h.alphabet, hgrown.alphabet, hgrown.min, hgrown.max]
    refine or_congr_right ?_
    constructor
    · intro hfound
      rcases hfound with ⟨n, p, label, m, q, hp, harrow, -, hs⟩
      exact ⟨n, label, m, (hreach n).2 ⟨p, hp⟩, harrow, hs⟩
    · intro hfound
      rcases hfound with ⟨n, label, m, hn, harrow, hs⟩
      obtain ⟨p, hp⟩ := (hreach n).1 hn
      -- where a reachable node leads to is reachable
      have hm := mem_reachable_of_mem_targets hn
        (mem_targets.2 ⟨label, harrow, label.contains_min⟩)
      obtain ⟨q, hq⟩ := (hreach m).1 hm
      exact ⟨n, p, label, m, q, hp, harrow, hq, hs⟩

end Automaton

end SymbolAutomata
