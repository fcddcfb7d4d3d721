/-
  SymbolAutomata/Proofs/Graph/Pairing.lean
  ========================================
  **Intersection in one pass.**

  `product` looks for all pairs first and writes their graph down afterwards.  The
  same graph grows while the pairs are being looked for: the pair at the head of a
  queue is visited, each of its common moves becomes an arc, and a pair that is met
  for the first time gets a node and waits in the queue (`Draft.follow`).

  A draft shows the pairs found and the arcs drawn so far (`Draft.showing`), and each
  visit shows one more step of the search (`foldl_follow_showing`).  So the pass comes
  to its end whenever the search does (`completes_of_drains`), with a node for each pair
  that has been found and for no other one.
-/
import SymbolAutomata.Proofs.Graph.Product

namespace SymbolAutomata

namespace Graph

/-- **A product that is being built**: the graph so far, the node of each pair that has been met,
    and the pairs that are still to be visited. -/
structure Draft where
  graph : Graph
  names : List ((NodeId × NodeId) × NodeId)
  queue : List (NodeId × NodeId)

/-! ### One pass over the pairs -/

section Pass

variable (a b : Graph)

/-- Whether both nodes of a pair accept. -/
def bothAccept (pair : NodeId × NodeId) : Bool := a.isAccept pair.1 && b.isAccept pair.2

/-- The first pair has a node, which is initial, and waits to be visited. -/
def Draft.start (pair : NodeId × NodeId) : Draft :=
  ⟨(empty.addNode (bothAccept a b pair)).setInitial 0, [(pair, 0)], [pair]⟩

/-- **One common move** becomes an arc from the given node.  If its pair has no node yet, it is
    given one and has to wait. -/
def Draft.follow (n : NodeId) (d : Draft) (move : Interval × NodeId × NodeId) : Draft :=
  match d.names.lookup move.2 with
  | some m => { d with graph := d.graph.connect n move.1 m }
  | none =>
    let m := d.graph.nextNode
    ⟨(d.graph.addNode (bothAccept a b move.2)).connect n move.1 m, d.names ++ [(move.2, m)],
      d.queue ++ [move.2]⟩

/-- **The pass**, which is complete when no pair waits any more. -/
inductive Completes : Draft → Graph → Prop where
  | idle {d : Draft} (hqueue : d.queue = []) : Completes d d.graph
  | visit {d : Draft} {pair : NodeId × NodeId} {queue : List (NodeId × NodeId)} {n : NodeId}
      {g : Graph} (hqueue : d.queue = pair :: queue) (hn : d.names.lookup pair = some n)
      (rest : Completes
        ((commonMoves a b pair).foldl (Draft.follow a b n) { d with queue := queue }) g) :
      Completes d g

/-! ### What a draft shows -/

/-- The draft of the pairs found so far and the arcs between them. -/
def Draft.showing (found queue : List (NodeId × NodeId))
    (arcs : List (NodeId × Interval × NodeId)) : Draft :=
  ⟨build (found.map (bothAccept a b)) arcs 0, found.zipIdx, queue⟩

/-- The arcs for the common moves of node `n`, numbered by the given pairs. -/
def arcsTo (found : List (NodeId × NodeId)) (n : NodeId)
    (moves : List (Interval × NodeId × NodeId)) : List (NodeId × Interval × NodeId) :=
  moves.map fun move => (n, move.1, found.idxOf move.2)

/-- The arcs of all pairs on the first list, numbered by the second. -/
def arcsOf (done found : List (NodeId × NodeId)) : List (NodeId × Interval × NodeId) :=
  done.zipIdx.flatMap fun (pair, n) => arcsTo found n (commonMoves a b pair)

end Pass

variable {a b : Graph}

/-- **There is one pass only**, as each of its steps is determined. -/
theorem Completes.unique {d : Draft} {g h : Graph} (hg : Completes a b d g)
    (hh : Completes a b d h) : g = h := by
  induction hg with
  | idle hqueue =>
    cases hh with
    | idle => rfl
    | visit hqueue' =>
      rw [hqueue] at hqueue'
      cases hqueue'
  | visit hqueue hn _ ih =>
    cases hh with
    | idle hqueue' =>
      rw [hqueue] at hqueue'
      cases hqueue'
    | visit hqueue' hn' rest =>
      rw [hqueue] at hqueue'
      obtain ⟨rfl, rfl⟩ := List.cons.inj hqueue'
      obtain rfl := Option.some.inj (hn.symm.trans hn')
      exact ih rest

theorem start_eq_showing (pair : NodeId × NodeId) :
    Draft.start a b pair = Draft.showing a b [pair] [pair] [] := rfl

theorem arcsTo_cons (found : List (NodeId × NodeId)) (n : NodeId)
    (move : Interval × NodeId × NodeId) (moves : List (Interval × NodeId × NodeId)) :
    arcsTo found n (move :: moves) = arcsTo found n [move] ++ arcsTo found n moves := rfl

theorem within_arcsTo {found : List (NodeId × NodeId)} {n : NodeId} (hn : n < found.length)
    {moves : List (Interval × NodeId × NodeId)} (hmoves : ∀ move ∈ moves, move.2 ∈ found) :
    Within (arcsTo found n moves) found.length := by
  intro e he
  obtain ⟨move, hmove, rfl⟩ := List.mem_map.1 he
  exact ⟨hn, List.idxOf_lt_length_of_mem (hmoves move hmove)⟩

theorem arcsTo_eq_of_isPrefix {found met : List (NodeId × NodeId)} (h : met <+: found) (n : NodeId)
    {moves : List (Interval × NodeId × NodeId)} (hmoves : ∀ move ∈ moves, move.2 ∈ met) :
    arcsTo found n moves = arcsTo met n moves :=
  List.map_congr_left fun move hmove => by rw [idxOf_eq_of_isPrefix h (hmoves move hmove)]

/-! ### One move, one visit -/

section Follow

variable {found queue : List (NodeId × NodeId)} {arcs : List (NodeId × Interval × NodeId)}
  {n : NodeId} (hfound : found.Nodup) (harcs : Within arcs found.length)

include hfound harcs

/-- **One move.** -/
theorem follow_showing (i : Interval) (dest : NodeId × NodeId) :
    (Draft.showing a b found queue arcs).follow a b n (i, dest) =
      Draft.showing a b (found ++ fresh found [dest]) (queue ++ fresh found [dest])
        (arcs ++ [(n, i, (found ++ fresh found [dest]).idxOf dest)]) := by
  by_cases hdest : dest ∈ found
  · have hname : found.zipIdx.lookup dest = some (found.idxOf dest) :=
      (lookup_zipIdx hfound).2 (List.getElem?_idxOf hdest)
    have hfresh : fresh found [dest] = [] := by
      rw [fresh, if_pos hdest]
      rfl
    rw [Draft.follow, hfresh, List.append_nil, List.append_nil]
    simp only [Draft.showing, hname, connect_build]
  · have hname : found.zipIdx.lookup dest = none := by
      rw [Option.eq_none_iff_forall_ne_some]
      intro m hm
      exact hdest (List.mem_of_getElem? ((lookup_zipIdx hfound).1 hm))
    have hfresh : fresh found [dest] = [dest] := by
      rw [fresh, if_neg hdest]
      rfl
    have hindex : (found ++ [dest]).idxOf dest = found.length := by
      rw [List.idxOf_append_of_notMem hdest, List.idxOf_cons_self, Nat.add_zero]
    have hwithin : Within arcs (found.map (bothAccept a b)).length := by
      rwa [List.length_map]
    rw [Draft.follow, hfresh, hindex]
    simp only [Draft.showing, hname, nextNode_build, addNode_build hwithin, connect_build,
      List.length_map, List.map_append, List.map_cons, List.map_nil, List.zipIdx_append,
      List.zipIdx_cons, List.zipIdx_nil, Nat.zero_add]

/-- **One visit.** -/
theorem foldl_follow_showing (hn : n < found.length) (moves : List (Interval × NodeId × NodeId)) :
    moves.foldl (Draft.follow a b n) (Draft.showing a b found queue arcs) =
      Draft.showing a b (found ++ fresh found (moves.map (·.2)))
        (queue ++ fresh found (moves.map (·.2)))
        (arcs ++ arcsTo (found ++ fresh found (moves.map (·.2))) n moves) := by
  induction moves generalizing found queue arcs with
  | nil => simp [fresh, arcsTo]
  | cons move moves ih =>
    obtain ⟨i, dest⟩ := move
    have hmet : ∀ m ∈ [(i, dest)], m.2 ∈ found ++ fresh found [dest] := by
      intro m hm
      rw [List.mem_singleton.1 hm]
      exact mem_append_fresh.2 (Or.inr (List.mem_singleton_self dest))
    have hlength := (List.prefix_append found (fresh found [dest])).length_le
    have hlt := Nat.lt_of_lt_of_le hn hlength
    have hnext : Within (arcs ++ arcsTo (found ++ fresh found [dest]) n [(i, dest)])
        (found ++ fresh found [dest]).length :=
      within_append.2 ⟨harcs.mono hlength, within_arcsTo hlt hmet⟩
    -- the number of the first pair is the same among the pairs met later
    have hfirst := arcsTo_eq_of_isPrefix (List.prefix_append (found ++ fresh found [dest])
      (fresh (found ++ fresh found [dest]) (moves.map (·.2)))) n hmet
    rw [List.foldl_cons, follow_showing hfound harcs]
    refine (ih (nodup_append_fresh hfound [dest]) hnext hlt).trans ?_
    rw [List.map_cons, append_fresh_cons found dest (moves.map (·.2)),
      fresh_cons found dest (moves.map (·.2)), arcsTo_cons _ n (i, dest) moves, hfirst]
    simp only [List.append_assoc]

end Follow

/-! ### The whole pass -/

theorem arcsOf_append_singleton (done found : List (NodeId × NodeId)) (pair : NodeId × NodeId) :
    arcsOf a b (done ++ [pair]) found =
      arcsOf a b done found ++ arcsTo found done.length (commonMoves a b pair) := by
  simp only [arcsOf, List.zipIdx_append, List.zipIdx_cons, List.zipIdx_nil, Nat.zero_add,
    List.flatMap_append, List.flatMap_cons, List.flatMap_nil, List.append_nil]

/-- **The pass follows the search**, pair by pair, and so comes to its end with it. -/
theorem completes_of_drains {done queue found : List (NodeId × NodeId)}
    (h : Drains (commonNext a b) done queue found) (hnodup : (done ++ queue).Nodup)
    (hwithin : Within (arcsOf a b done found) (done ++ queue).length) :
    Completes a b (Draft.showing a b (done ++ queue) queue (arcsOf a b done found))
      (Draft.showing a b found [] (arcsOf a b found found)).graph := by
  induction h with
  | idle done =>
    rw [List.append_nil]
    exact .idle rfl
  | @visit pair done queue found rest ih =>
    have hn : done.length < (done ++ pair :: queue).length := by
      rw [List.length_append, List.length_cons]
      omega
    have hname : (done ++ pair :: queue).zipIdx.lookup pair = some done.length := by
      rw [lookup_zipIdx hnodup, List.getElem?_append_right (Nat.le_refl _), Nat.sub_self]
      rfl
    have hprefix := rest.isPrefix
    rw [visit_append] at ih hprefix
    refine .visit rfl hname ?_
    generalize done ++ pair :: queue = seen at *
    -- after the visit all pairs that the moves lead to have been met
    have hmet : ∀ move ∈ commonMoves a b pair,
        move.2 ∈ seen ++ fresh seen (commonNext a b pair) :=
      fun move hmove => mem_append_fresh.2 (Or.inr (List.mem_map.2 ⟨move, hmove, rfl⟩))
    have hlength := (List.prefix_append seen (fresh seen (commonNext a b pair))).length_le
    have harcs : arcsOf a b (done ++ [pair]) found = arcsOf a b done found ++
        arcsTo (seen ++ fresh seen (commonNext a b pair)) done.length (commonMoves a b pair) := by
      rw [arcsOf_append_singleton, arcsTo_eq_of_isPrefix hprefix _ hmet]
    rw [harcs, ← foldl_follow_showing hnodup hwithin hn] at ih
    refine ih (nodup_append_fresh hnodup _) (within_append.2 ⟨hwithin.mono hlength, ?_⟩)
    exact within_arcsTo (Nat.lt_of_lt_of_le hn hlength) hmet

/-- **The product is what one pass makes.** -/
theorem completes_product (start : NodeId × NodeId) :
    Completes a b (Draft.start a b start) (product a b start) := by
  rw [start_eq_showing]
  exact completes_of_drains drains_pairsFrom (List.nodup_singleton _) (by intro e he; cases he)

/-! ### Intersection -/

/-- **The nodes of a graph stand for pairs** of nodes of two graphs, each for the pair at its place
    in a list, and accept what both nodes of the pair accept. -/
structure StandsFor (g a b : Graph) (pairs : List (NodeId × NodeId)) : Prop where
  distinct : pairs.Nodup
  nodeIds : g.nodeIds = List.range pairs.length
  accepts : ∀ n p q, pairs[n]? = some (p, q) →
    ∀ w, g.AcceptsFrom n w ↔ a.AcceptsFrom p w ∧ b.AcceptsFrom q w

theorem standsFor_product (start : NodeId × NodeId) :
    (product a b start).StandsFor a b (pairsFrom a b start) := by
  refine ⟨pairsFrom_nodup, ?_, fun n p q hn w => acceptsFrom_product hn⟩
  rw [product, nodeIds_build, List.length_map]

/-- **Intersection**, of any two graphs.  A word is accepted just when both accept it.  The result
    is single valued if both are, and declared deterministic if both are.  From two initial nodes
    there is just one pass, which comes to its end and makes the result; each of its nodes stands
    for another one of the pairs that common moves lead to. -/
theorem intersection_correct (a b : Graph) :
    (∀ w, (a.intersection b).run w = (a.run w && b.run w)) ∧
      (a.SingleValued → b.SingleValued → (a.intersection b).SingleValued) ∧
      (a.deterministic = true → b.deterministic = true →
        (a.intersection b).deterministic = true) ∧
      (a.intersection b).nodeCount ≤ max 1 (a.nodeCount * b.nodeCount) ∧
      ∀ i j, a.initial = some i → b.initial = some j → ∃ g pairs,
        (∀ h, Completes a b (Draft.start a b (i, j)) h ↔ h = g) ∧
          a.intersection b = g.declare (a.deterministic && b.deterministic) ∧
          g.StandsFor a b pairs ∧
          ∀ pair, pair ∈ pairs ↔ Leads (commonNext a b) (i, j) pair := by
  refine ⟨?_, singleValued_intersection, ?_, nodeCount_intersection_le, ?_⟩
  · intro w
    rw [Bool.eq_iff_iff, Bool.and_eq_true, run_iff_mem_language, run_iff_mem_language,
      run_iff_mem_language, language_intersection, mem_both]
  · intro ha hb
    unfold intersection
    split
    · exact Bool.and_eq_true_iff.2 ⟨ha, hb⟩
    · rfl
  · intro i j hi hj
    have hpass : Completes a b (Draft.start a b (i, j)) (product a b (i, j)) :=
      completes_product (i, j)
    refine ⟨product a b (i, j), pairsFrom a b (i, j), ?_, intersection_eq hi hj,
      standsFor_product (i, j), fun pair => mem_pairsFrom⟩
    intro h
    constructor
    · exact fun hother => hother.unique hpass
    · rintro rfl
      exact hpass

/-- Three nodes in a ring, joined by labels that overlap. -/
def wheel : Graph :=
  build [true, false, false]
    [(0, .between 4 6, 1), (1, .between 5 9, 2), (2, .between 0 5, 0)] 0

theorem intersection_correct_wheel :
    ring.SingleValued ∧ wheel.SingleValued ∧ (ring.intersection wheel).SingleValued ∧
      (ring.intersection wheel).deterministic = true ∧
      (ring.intersection wheel).run [5, 5, 5, 5, 5, 5] = true ∧
      (ring.intersection wheel).nodeCount ≤ 6 ∧
      ∃ g pairs, Completes ring wheel (Draft.start ring wheel (0, 0)) g ∧
        g.StandsFor ring wheel pairs ∧ (1, 2) ∈ pairs := by
  obtain ⟨hrun, hone, hdeclared, hcount, hpass⟩ := intersection_correct ring wheel
  have hring : ring.SingleValued := isDeterministic_iff.1 (by decide_cbv)
  have hwheel : wheel.SingleValued := isDeterministic_iff.1 (by decide_cbv)
  have haccept : (ring.intersection wheel).run [5, 5, 5, 5, 5, 5] = true := by
    rw [hrun]
    decide
  obtain ⟨g, pairs, hunique, -, hstands, hmem⟩ := hpass 0 0 rfl rfl
  have hlead : Leads (commonNext ring wheel) (0, 0) (1, 2) :=
    .step (by decide_cbv : (1, 1) ∈ _) (.step (by decide_cbv : (0, 2) ∈ _)
      (.step (by decide_cbv : (1, 0) ∈ _) (.step (by decide_cbv : (0, 1) ∈ _)
        (.step (by decide_cbv) (.refl _)))))
  exact ⟨hring, hwheel, hone hring hwheel, hdeclared rfl rfl, haccept, hcount, g, pairs,
    (hunique g).2 rfl, hstands, (hmem _).2 hlead⟩

end Graph

end SymbolAutomata
