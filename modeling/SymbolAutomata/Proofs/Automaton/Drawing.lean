/-
  SymbolAutomata/Proofs/Automaton/Drawing.lean
  ============================================
  **What a drawing shows.**

  A drawing is its heading and a list of lines, with a blank line before the states and
  another before the arrows.  A text determines its lines (`lines_eq`), the lines determine
  their sections (`sections_eq_of_rows_eq`), and each line determines what it was written
  from: an initial state, the role of a state, an arrow with its symbols.  The arrows hold
  the transitions, grouped by their ends (`flatMap_arrowsAll_perm`), and the list of
  transitions is in order, so it can be had from them.

  So two automata have the same drawing just if they agree on the number of states, the
  initial state, the final states and the list of transitions (`draw_faithful`).
-/
import Mathlib.Data.List.Basic
import SymbolAutomata.Automaton.Edit
import SymbolAutomata.Proofs.Automaton.ArrowLabel
import SymbolAutomata.Proofs.Automaton.Listing
import SymbolAutomata.Proofs.Graph.Merging

namespace SymbolAutomata

/-! ### Texts and their lines -/

/-- The first place of a separator cuts a list in one way only. -/
theorem eq_of_append_cons_eq {α : Type} {c : α} {xs ys us vs : List α} (hxs : c ∉ xs) (hys : c ∉ ys)
    (h : xs ++ c :: us = ys ++ c :: vs) : xs = ys ∧ us = vs := by
  induction xs generalizing ys with
  | nil =>
    cases ys with
    | nil => exact ⟨rfl, (List.cons.inj h).2⟩
    | cons y ys => exact absurd ((List.cons.inj h).1 ▸ List.mem_cons_self ..) hys
  | cons x xs ih =>
    rw [List.mem_cons, not_or] at hxs
    cases ys with
    | nil => exact absurd (List.cons.inj h).1.symm hxs.1
    | cons y ys =>
      rw [List.mem_cons, not_or] at hys
      obtain ⟨rfl, htail⟩ := List.cons.inj h
      obtain ⟨rfl, hrest⟩ := ih hxs.2 hys.2 htail
      exact ⟨rfl, hrest⟩

/-- A line ends where it has its only newline. -/
def IsLine (line : List Char) : Prop := '\n' ∉ line.dropLast ∧ line.getLast? = some '\n'

instance : DecidablePred IsLine := fun _ => inferInstanceAs (Decidable (_ ∧ _))

theorem isLine_iff {line : List Char} :
    IsLine line ↔ ∃ text, '\n' ∉ text ∧ line = text ++ ['\n'] := by
  constructor
  · rintro ⟨hrest, hlast⟩
    obtain ⟨text, rfl⟩ := List.getLast?_eq_some_iff.1 hlast
    exact ⟨text, by rwa [List.dropLast_concat] at hrest, rfl⟩
  · rintro ⟨text, htext, rfl⟩
    exact ⟨by rwa [List.dropLast_concat], List.getLast?_concat⟩

theorem IsLine.append {text line : List Char} (h : IsLine line) (htext : '\n' ∉ text) :
    IsLine (text ++ line) := by
  obtain ⟨rest, hrest, rfl⟩ := isLine_iff.1 h
  refine isLine_iff.2 ⟨text ++ rest, ?_, (List.append_assoc ..).symm⟩
  exact fun hmem => (List.mem_append.1 hmem).elim htext hrest

theorem IsLine.append_ne_nil {line : List Char} (h : IsLine line) (rest : List Char) :
    line ++ rest ≠ [] := by
  obtain ⟨text, -, rfl⟩ := isLine_iff.1 h
  simp

/-- **A text determines its lines.** -/
theorem lines_eq {ls ms : List (List Char)} (hls : ∀ l ∈ ls, IsLine l) (hms : ∀ m ∈ ms, IsLine m)
    (h : ls.flatten = ms.flatten) : ls = ms := by
  induction ls generalizing ms with
  | nil =>
    cases ms with
    | nil => rfl
    | cons m ms => exact absurd h.symm ((hms m (List.mem_cons_self ..)).append_ne_nil _)
  | cons l ls ih =>
    rw [List.forall_mem_cons] at hls
    cases ms with
    | nil => exact absurd h (hls.1.append_ne_nil _)
    | cons m ms =>
      rw [List.forall_mem_cons] at hms
      obtain ⟨text, htext, rfl⟩ := isLine_iff.1 hls.1
      obtain ⟨text', htext', rfl⟩ := isLine_iff.1 hms.1
      rw [List.flatten_cons, List.flatten_cons, List.append_assoc, List.append_assoc] at h
      obtain ⟨rfl, hrest⟩ := eq_of_append_cons_eq htext htext' h
      rw [ih hls.2 hms.2 hrest]

/-- A map that tells members apart tells lists of them apart. -/
theorem eq_of_map_eq {α β : Type} {f : α → β} {xs ys : List α}
    (hinj : ∀ x ∈ xs, ∀ y ∈ ys, f x = f y → x = y) (h : xs.map f = ys.map f) : xs = ys := by
  induction xs generalizing ys with
  | nil => exact (List.map_eq_nil_iff.1 h.symm).symm
  | cons x xs ih =>
    cases ys with
    | nil => cases h
    | cons y ys =>
      obtain ⟨hhead, htail⟩ := List.cons.inj h
      have hrest : xs = ys := ih (fun x hx y hy =>
        hinj x (List.mem_cons_of_mem _ hx) y (List.mem_cons_of_mem _ hy)) htail
      rw [hinj x (List.mem_cons_self ..) y (List.mem_cons_self ..) hhead, hrest]

/-! ### Numbers of states -/

theorem digits_index (i : StateIndex) : Text.Digits (toString i).toList := by
  rw [Nat.toString_eq_repr, Nat.toList_repr]
  exact Text.digits_toDigits i

theorem not_mem_index (i : StateIndex) {c : Char} (hc : c.isDigit = false) :
    c ∉ (toString i).toList :=
  (digits_index i).not_mem hc

theorem index_eq {i j : StateIndex} (h : (toString i).toList = (toString j).toList) : i = j := by
  rw [Nat.toString_eq_repr, Nat.toString_eq_repr, Nat.toList_repr, Nat.toList_repr] at h
  have hread := congrArg (fun digits => Nat.ofDigitChars 10 digits 0) h
  rwa [Nat.ofDigitChars_ten_toDigits, Nat.ofDigitChars_ten_toDigits] at hread

/-! ### Sorted lists -/

theorem mem_loop_eraseReps {n k : Nat} {ns acc : List Nat} :
    k ∈ List.eraseRepsBy.loop (· == ·) n ns acc ↔ k = n ∨ k ∈ ns ∨ k ∈ acc := by
  induction ns generalizing n acc with
  | nil => simp [List.eraseRepsBy.loop, or_comm]
  | cons m ns ih =>
    unfold List.eraseRepsBy.loop
    split
    · next heq =>
      rw [ih, List.mem_cons, ← beq_iff_eq.1 heq]
      tauto
    · rw [ih, List.mem_cons, List.mem_cons]
      tauto

theorem mem_eraseReps {k : Nat} {ns : List Nat} : k ∈ ns.eraseReps ↔ k ∈ ns := by
  cases ns with
  | nil => exact Iff.rfl
  | cons n ns => exact mem_loop_eraseReps.trans (by simp)

theorem Transition.Before.asymm {t u : Transition} (h : t.Before u) : ¬ u.Before t := by
  simp only [Transition.Before, Symbol, StateIndex] at *
  omega

namespace Automaton

variable {a b : Automaton} {i : StateIndex}

/-! ### Arrows -/

/-- The arrows of all states, each with its source. -/
def arrowsAll (a : Automaton) : List (StateIndex × StateIndex × List Symbol) :=
  (List.range a.stateCount).flatMap fun i => (a.arrows i).map fun arrow => (i, arrow)

/-- The transitions that an arrow stands for. -/
def arrowTransitions : StateIndex × StateIndex × List Symbol → List Transition
  | (i, j, symbols) => symbols.map fun s => ⟨i, j, s⟩

/-- The symbols of an arrow stand for the transitions between its ends. -/
theorem arrowTransitions_group (a : Automaton) (i j : StateIndex) :
    arrowTransitions (i, j,
      ((a.transitionsFrom i).value.filter (·.destination = j)).map (·.symbol)) =
        (a.transitionsFrom i).value.filter (·.destination = j) := by
  have hsame : ∀ t ∈ (a.transitionsFrom i).value.filter (·.destination = j),
      (⟨i, j, t.symbol⟩ : Transition) = id t := by
    intro t ht
    obtain ⟨hmem, hdest⟩ := List.mem_filter.1 ht
    rw [← source_of_mem_transitionsFrom hmem, ← of_decide_eq_true hdest]
    rfl
  rw [arrowTransitions, List.map_map]
  exact (List.map_congr_left hsame).trans (List.map_id _)

/-- **The arrows of a state hold its transitions**, each just as often as they are listed. -/
theorem flatMap_arrows_perm (a : Automaton) (i : StateIndex) :
    ((a.arrows i).flatMap fun arrow => arrowTransitions (i, arrow)).Perm
      (a.transitionsFrom i).value := by
  unfold arrows
  simp only [List.flatMap_map, arrowTransitions_group]
  refine perm_groups Transition.destination ((ascending_sorted _).imp Nat.ne_of_lt) fun t ht => ?_
  rw [mem_ascending, mem_eraseReps]
  exact List.mem_map_of_mem ht

/-- **The arrows hold the transitions.** -/
theorem flatMap_arrowsAll_perm (a : Automaton) :
    (a.arrowsAll.flatMap arrowTransitions).Perm a.transitions := by
  unfold arrowsAll transitions
  rw [List.flatMap_assoc]
  refine List.Perm.flatMap_left _ fun i _ => ?_
  rw [List.flatMap_map]
  exact flatMap_arrows_perm a i

/-- The list of transitions is in order, so that the arrows determine it. -/
theorem transitions_eq_of_arrowsAll_eq (h : a.arrowsAll = b.arrowsAll) :
    a.transitions = b.transitions := by
  have hperm : a.transitions.Perm b.transitions :=
    (flatMap_arrowsAll_perm a).symm.trans (h ▸ flatMap_arrowsAll_perm b)
  refine hperm.eq_of_pairwise (fun t u _ _ htu hut => ?_) a.transitions_sorted b.transitions_sorted
  rcases htu with rfl | htu
  · rfl
  · rcases hut with rfl | hut
    · rfl
    · exact absurd hut htu.asymm

theorem isSymbol_of_mem_arrowsAll {arrow : StateIndex × StateIndex × List Symbol}
    (h : arrow ∈ a.arrowsAll) : ∀ s ∈ arrow.2.2, Codec.IsSymbol s := by
  intro s hs
  have hmem : (⟨arrow.1, arrow.2.1, s⟩ : Transition) ∈ a.transitions :=
    (flatMap_arrowsAll_perm a).mem_iff.1 (List.mem_flatMap.2 ⟨arrow, h, List.mem_map_of_mem hs⟩)
  exact (mem_transitions_iff_relates.1 hmem).2.isSymbol

/-! ### Lines -/

section Lines

variable {j i' j' : StateIndex} {symbols symbols' : List Symbol}

/-- The lines about the initial state. -/
def initialRows : Option StateIndex → List (List Char)
  | none => []
  | some i => ["  initial [shape=plaintext, label=\"\", style=\"\"];\n".toList,
      ("  initial -> " ++ toString i ++ ";\n").toList]

theorem toList_initialLines (initial : Option StateIndex) :
    (initialLines initial).toList = (initialRows initial).flatten := by
  have hcut : "  initial [shape=plaintext, label=\"\", style=\"\"];\n  initial -> " =
      "  initial [shape=plaintext, label=\"\", style=\"\"];\n" ++ "  initial -> " := by decide
  cases initial with
  | none => rfl
  | some i =>
    unfold initialLines initialRows
    dsimp only
    rw [List.flatten_cons, List.flatten_cons, List.flatten_nil, List.append_nil,
      ← String.toList_append, hcut, String.append_assoc, String.append_assoc, String.append_assoc]

theorem initialRows_injective : Function.Injective initialRows := by
  intro initial initial' h
  cases initial with
  | none =>
    cases initial' with
    | none => rfl
    | some i' => cases h
  | some i =>
    cases initial' with
    | none => cases h
    | some i' =>
      have hrow := (List.cons.inj (List.cons.inj h).2).1
      simp only [String.toList_append] at hrow
      rw [index_eq (List.append_cancel_left (List.append_cancel_right hrow))]

theorem isLine_of_mem_initialRows {initial : Option StateIndex} {line : List Char}
    (h : line ∈ initialRows initial) : IsLine line ∧ line ≠ ['\n'] := by
  cases initial with
  | none => cases h
  | some i =>
    rcases List.mem_pair.1 h with rfl | rfl
    · decide
    · rw [String.toList_append, String.toList_append, List.append_assoc]
      have hend : IsLine ";\n".toList := by decide
      exact ⟨(hend.append (not_mem_index i (by decide))).append (by decide), nofun⟩

/-- The rest of a state's line, which shows its role. -/
def roleText (role : Role) : List Char :=
  (role.shape ++ ", fillcolor=\"" ++ role.color ++ "\"];\n").toList

theorem roleText_injective : Function.Injective roleText := by
  intro role role' h
  cases role <;> cases role' <;> first | rfl | exact absurd h (by decide)

theorem isLine_roleText (role : Role) : IsLine (roleText role) := by
  cases role <;> decide

theorem toList_stateLine (a : Automaton) (i : StateIndex) : (a.stateLine i).toList =
    "  ".toList ++ ((toString i).toList ++ (" [shape=".toList ++
      roleText (Role.of (a.initialState = some i) (a.isFinal i).value))) := by
  simp only [stateLine, roleText, String.toList_append, List.append_assoc]

theorem isLine_stateLine (a : Automaton) (i : StateIndex) :
    IsLine (a.stateLine i).toList ∧ (a.stateLine i).toList ≠ ['\n'] := by
  rw [toList_stateLine]
  have hrole := (isLine_roleText (Role.of (a.initialState = some i) (a.isFinal i).value)).append
    (show '\n' ∉ " [shape=".toList by decide)
  exact ⟨(hrole.append (not_mem_index i (by decide))).append (by decide), nofun⟩

/-- **The line of a state** shows whether it is final. -/
theorem isFinal_eq_of_stateLine_eq (h : (a.stateLine i).toList = (b.stateLine i).toList) :
    (a.isFinal i).value = (b.isFinal i).value := by
  rw [toList_stateLine, toList_stateLine] at h
  have hrole := roleText_injective
    (List.append_cancel_left (List.append_cancel_left (List.append_cancel_left h)))
  rw [← Role.isAccepting_of _ (a.isFinal i).value, hrole, Role.isAccepting_of]

theorem toList_arrowLine (i j : StateIndex) (symbols : List Symbol) :
    (arrowLine i (j, symbols)).toList =
      ' ' :: ' ' :: ((toString i).toList ++ ' ' :: '-' :: '>' :: ' ' :: ((toString j).toList ++
        ' ' :: ("[label=\"".toList ++ ((arrowLabel symbols).toList ++ "\"];\n".toList)))) := by
  simp only [arrowLine, String.toList_append, List.append_assoc]
  rfl

theorem isLine_arrowLine (hall : ∀ s ∈ symbols, Codec.IsSymbol s) :
    IsLine (arrowLine i (j, symbols)).toList := by
  have hend : IsLine "\"];\n".toList := by decide
  have hlabel := (hend.append (newline_not_mem_arrowLabel hall)).append
    (show '\n' ∉ " [label=\"".toList by decide)
  have htarget := (hlabel.append (not_mem_index j (by decide))).append
    (show '\n' ∉ " -> ".toList by decide)
  have hsource := (htarget.append (not_mem_index i (by decide))).append
    (show '\n' ∉ "  ".toList by decide)
  rw [toList_arrowLine]
  exact hsource

/-- **The line of an arrow** shows its ends and its symbols. -/
theorem arrow_eq_of_arrowLine_eq (hall : ∀ s ∈ symbols, Codec.IsSymbol s)
    (hall' : ∀ s ∈ symbols', Codec.IsSymbol s)
    (h : (arrowLine i (j, symbols)).toList = (arrowLine i' (j', symbols')).toList) :
    i = i' ∧ j = j' ∧ symbols = symbols' := by
  rw [toList_arrowLine, toList_arrowLine, List.cons_inj_right, List.cons_inj_right] at h
  obtain ⟨hi, h⟩ := eq_of_append_cons_eq (not_mem_index i (by decide))
    (not_mem_index i' (by decide)) h
  rw [List.cons_inj_right, List.cons_inj_right, List.cons_inj_right] at h
  obtain ⟨hj, h⟩ := eq_of_append_cons_eq (not_mem_index j (by decide))
    (not_mem_index j' (by decide)) h
  have hlabel : arrowLabel symbols = arrowLabel symbols' :=
    String.toList_inj.1 (List.append_cancel_right (List.append_cancel_left h))
  refine ⟨index_eq hi, index_eq hj, Option.some.inj ?_⟩
  rw [← labelSymbols_arrowLabel hall, hlabel, labelSymbols_arrowLabel hall']

end Lines

/-! ### Drawings -/

/-- What stands above the lines of a drawing. -/
def heading (rankdir : String) : String :=
  "digraph Automaton \x7b\n  rankdir = " ++ rankdir ++ ";\n  node [style=filled];\n"

def stateRows (a : Automaton) : List (List Char) :=
  (List.range a.stateCount).map fun i => (a.stateLine i).toList

def arrowRows (a : Automaton) : List (List Char) :=
  a.arrowsAll.map fun arrow => (arrowLine arrow.1 arrow.2).toList

/-- **The lines of a drawing** below its heading. -/
def rows (a : Automaton) : List (List Char) :=
  initialRows a.initialState ++
    ['\n'] :: (a.stateRows ++ ['\n'] :: (a.arrowRows ++ ["\x7d\n".toList]))

theorem toList_join_stateLines (a : Automaton) :
    (String.join ((List.range a.stateCount).map a.stateLine)).toList = a.stateRows.flatten := by
  rw [String.toList_join, stateRows, List.flatMap_map, List.flatMap_def]

theorem toList_join_arrowLines (a : Automaton) :
    (String.join ((List.range a.stateCount).flatMap fun i =>
      (a.arrows i).map (arrowLine i))).toList = a.arrowRows.flatten := by
  rw [String.toList_join, arrowRows, arrowsAll, List.flatMap_assoc, ← List.flatMap_def,
    List.flatMap_assoc]
  simp only [List.flatMap_map]

theorem toList_draw (a : Automaton) (rankdir : String) :
    (a.draw rankdir).toList = (heading rankdir).toList ++ a.rows.flatten := by
  show (heading rankdir ++ initialLines a.initialState ++ "\n" ++
    String.join ((List.range a.stateCount).map a.stateLine) ++ "\n" ++
    String.join ((List.range a.stateCount).flatMap fun i => (a.arrows i).map (arrowLine i)) ++
    "\x7d\n").toList = _
  simp only [String.toList_append, toList_initialLines, toList_join_stateLines,
    toList_join_arrowLines, rows, List.flatten_append, List.flatten_cons, List.flatten_nil,
    List.append_assoc, List.append_nil]
  rfl

theorem isLine_of_mem_stateRows {line : List Char} (h : line ∈ a.stateRows) :
    IsLine line ∧ line ≠ ['\n'] := by
  obtain ⟨i, -, rfl⟩ := List.mem_map.1 h
  exact isLine_stateLine a i

theorem isLine_of_mem_rows {line : List Char} (h : line ∈ a.rows) : IsLine line := by
  have hblank : IsLine ['\n'] := by decide
  have hend : IsLine "\x7d\n".toList := by decide
  simp only [rows, List.mem_append, List.mem_cons, List.not_mem_nil, or_false] at h
  rcases h with hinitial | rfl | hstate | rfl | harrow | rfl
  · exact (isLine_of_mem_initialRows hinitial).1
  · exact hblank
  · exact (isLine_of_mem_stateRows hstate).1
  · exact hblank
  · obtain ⟨arrow, hmem, rfl⟩ := List.mem_map.1 harrow
    exact isLine_arrowLine (isSymbol_of_mem_arrowsAll hmem)
  · exact hend

/-- The blank lines cut the lines of a drawing into its sections. -/
theorem sections_eq_of_rows_eq (h : a.rows = b.rows) :
    initialRows a.initialState = initialRows b.initialState ∧ a.stateRows = b.stateRows ∧
      a.arrowRows = b.arrowRows := by
  have hinitial : ∀ initial, ['\n'] ∉ initialRows initial := fun _ hmem =>
    (isLine_of_mem_initialRows hmem).2 rfl
  have hstate : ∀ c : Automaton, ['\n'] ∉ c.stateRows := fun _ hmem =>
    (isLine_of_mem_stateRows hmem).2 rfl
  obtain ⟨hfirst, hrest⟩ := eq_of_append_cons_eq (hinitial _) (hinitial _) h
  obtain ⟨hstates, harrows⟩ := eq_of_append_cons_eq (hstate a) (hstate b) hrest
  exact ⟨hfirst, hstates, List.append_cancel_right harrows⟩

theorem finalStates_eq_filter (a : Automaton) :
    a.finalStates = (List.range a.stateCount).filter fun i => (a.isFinal i).value := by
  simp only [isFinal_value]
  rfl

theorem states_eq_of_stateRows_eq (h : a.stateRows = b.stateRows) :
    a.stateCount = b.stateCount ∧ a.finalStates = b.finalStates := by
  have hcount : a.stateCount = b.stateCount := by
    simpa [stateRows] using congrArg List.length h
  refine ⟨hcount, ?_⟩
  rw [stateRows, stateRows, ← hcount] at h
  rw [finalStates_eq_filter, finalStates_eq_filter, ← hcount]
  exact List.filter_congr fun i hi => isFinal_eq_of_stateLine_eq (List.map_inj_left.1 h i hi)

theorem arrowsAll_eq_of_arrowRows_eq (h : a.arrowRows = b.arrowRows) :
    a.arrowsAll = b.arrowsAll := by
  refine eq_of_map_eq (fun arrow hmem arrow' hmem' heq => ?_) h
  obtain ⟨hi, hj, hsymbols⟩ := arrow_eq_of_arrowLine_eq (isSymbol_of_mem_arrowsAll hmem)
    (isSymbol_of_mem_arrowsAll hmem') heq
  exact Prod.ext hi (Prod.ext hj hsymbols)

/-- **Drawings that are the same** show the same. -/
theorem same_of_draw_eq {rankdir : String} (h : a.draw rankdir = b.draw rankdir) :
    a.stateCount = b.stateCount ∧ a.initialState = b.initialState ∧
      a.finalStates = b.finalStates ∧ a.transitions = b.transitions := by
  have htext := congrArg String.toList h
  rw [toList_draw, toList_draw] at htext
  have hrows : a.rows = b.rows := lines_eq (fun _ => isLine_of_mem_rows)
    (fun _ => isLine_of_mem_rows) (List.append_cancel_left htext)
  obtain ⟨hinitial, hstates, harrows⟩ := sections_eq_of_rows_eq hrows
  obtain ⟨hcount, hfinal⟩ := states_eq_of_stateRows_eq hstates
  exact ⟨hcount, initialRows_injective hinitial, hfinal,
    transitions_eq_of_arrowsAll_eq (arrowsAll_eq_of_arrowRows_eq harrows)⟩

/-! ### What a drawing depends on -/

/-- The transitions of a state are those of the whole list that have it for their source. -/
theorem filter_transitions (hi : i < a.stateCount) :
    a.transitions.filter (fun t => decide (t.source = i)) = (a.transitionsFrom i).value := by
  obtain ⟨before, after, hrange⟩ := List.append_of_mem (List.mem_range.2 hi)
  have hnodup : (before ++ i :: after).Nodup := hrange ▸ List.nodup_range
  have hother : ∀ k, k ≠ i →
      (a.transitionsFrom k).value.filter (fun t => decide (t.source = i)) = [] := by
    intro k hk
    refine List.filter_eq_nil_iff.2 fun t ht hsource => hk ?_
    rw [← source_of_mem_transitionsFrom ht, of_decide_eq_true hsource]
  have hown : (a.transitionsFrom i).value.filter (fun t => decide (t.source = i)) =
      (a.transitionsFrom i).value :=
    List.filter_eq_self.2 fun t ht => decide_eq_true (source_of_mem_transitionsFrom ht)
  have hbefore : ∀ k ∈ before, k ≠ i := fun k hk =>
    (List.nodup_append.1 hnodup).2.2 k hk i (List.mem_cons_self ..)
  have hafter : ∀ k ∈ after, k ≠ i := fun k hk heq =>
    (List.nodup_cons.1 (List.nodup_append.1 hnodup).2.1).1 (heq ▸ hk)
  rw [transitions, List.filter_flatMap, hrange, List.flatMap_append, List.flatMap_cons, hown,
    List.flatMap_eq_nil_iff.2 fun k hk => hother k (hbefore k hk),
    List.flatMap_eq_nil_iff.2 fun k hk => hother k (hafter k hk), List.nil_append, List.append_nil]

theorem isFinal_iff (hi : i < a.stateCount) : (a.isFinal i).value = true ↔ i ∈ a.finalStates := by
  rw [finalStates_eq_filter, List.mem_filter, List.mem_range]
  exact (and_iff_right hi).symm

/-- **A drawing shows no more** than the number of states, the initial and the final ones, and the
    transitions. -/
theorem draw_eq_of_same (hcount : a.stateCount = b.stateCount)
    (hinitial : a.initialState = b.initialState) (hfinal : a.finalStates = b.finalStates)
    (htransitions : a.transitions = b.transitions) (rankdir : String) :
    a.draw rankdir = b.draw rankdir := by
  have hstates : ∀ i ∈ List.range b.stateCount, a.stateLine i = b.stateLine i := by
    intro i hi
    have hb := List.mem_range.1 hi
    have ha : i < a.stateCount := hcount ▸ hb
    have hsame : (a.isFinal i).value = (b.isFinal i).value := by
      rw [Bool.eq_iff_iff, isFinal_iff ha, isFinal_iff hb, hfinal]
    unfold stateLine
    rw [hinitial, hsame]
  have harrows : ∀ i ∈ List.range b.stateCount, a.arrows i = b.arrows i := by
    intro i hi
    have hb := List.mem_range.1 hi
    have ha : i < a.stateCount := hcount ▸ hb
    unfold arrows
    rw [← filter_transitions ha, ← filter_transitions hb, htransitions]
  unfold draw
  dsimp only
  rw [hcount, hinitial, List.map_congr_left hstates,
    List.flatMap_congr fun i hi => congrArg (List.map (arrowLine i)) (harrows i hi)]

/-- Two states with an arrow between them and a loop. -/
def sketched : Automaton :=
  (withClamp 0 99).after
    [.addState, .addState, .setInitial 0, .setFinal [1], .addTransition 0 1 [1, 2, 5, 6, 7, 8, 9],
      .addTransition 1 1 [4]]

/-- **Drawings are faithful**, in any direction: two automata have the same drawing just if they
    agree on the number of states, the initial state, the final states and the list of transitions.
    In particular the label of an arrow, with its commas and ranges resolved, is the list of symbols
    that was written. -/
theorem draw_faithful (a b : Automaton) (rankdir : String) :
    (a.draw rankdir = b.draw rankdir ↔
      a.stateCount = b.stateCount ∧ a.initialState = b.initialState ∧
        a.finalStates = b.finalStates ∧ a.transitions = b.transitions) ∧
      ∀ symbols : List Symbol, (∀ s ∈ symbols, Codec.IsSymbol s) →
        labelSymbols (arrowLabel symbols) = some symbols := by
  refine ⟨⟨same_of_draw_eq, ?_⟩, fun symbols => labelSymbols_arrowLabel⟩
  rintro ⟨hcount, hinitial, hfinal, htransitions⟩
  exact draw_eq_of_same hcount hinitial hfinal htransitions rankdir

/-- One more symbol on an arrow is seen, here between two runs. -/
theorem draw_faithful_sketched :
    sketched.draw "LR" ≠ (sketched.after [.addTransition 0 1 [3]]).draw "LR" ∧
      arrowLabel [1, 2, 5, 6, 7, 8, 9] = "\x7b1,2,5..9\x7d" ∧
      labelSymbols (arrowLabel [1, 2, 5, 6, 7, 8, 9]) = some [1, 2, 5, 6, 7, 8, 9] := by
  obtain ⟨hdraw, hlabel⟩ := draw_faithful sketched (sketched.after [.addTransition 0 1 [3]]) "LR"
  have hnone : ¬ (⟨0, 1, 3⟩ : Transition) ∈ sketched.transitions := by
    rw [mem_transitions_iff_relates, relates_iff_mem_reached (by decide)]
    decide
  have hsome :
      (⟨0, 1, 3⟩ : Transition) ∈ (sketched.after [.addTransition 0 1 [3]]).transitions := by
    rw [mem_transitions_iff_relates, relates_iff_mem_reached (by decide)]
    decide
  refine ⟨fun h => hnone ((hdraw.1 h).2.2.2 ▸ hsome), by decide, ?_⟩
  exact hlabel [1, 2, 5, 6, 7, 8, 9] (by decide)

end Automaton

end SymbolAutomata
