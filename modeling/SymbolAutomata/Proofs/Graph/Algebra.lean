/-
  SymbolAutomata/Proofs/Graph/Algebra.lean
  ========================================
  **Union, concatenation and repetition** of graphs are those of their languages.

  All three copy their operands and splice silent moves between the copies.  A
  region of named nodes where no silent move starts accepts what its part accepts
  (`acceptsFrom_splice_named`); one whose accepting nodes all move silently to the
  same exit accepts what its part accepts followed by what the exit does
  (`acceptsFrom_splice_exit`).  Unions have two regions of the first kind,
  concatenations one of each kind.  Repetition leads from its only region back to
  where it came from, so its words are found by induction on the path.
-/
import Mathlib.Data.List.ReduceOption
import SymbolAutomata.Proofs.Graph.Copy
import SymbolAutomata.Proofs.Graph.Subset
import SymbolAutomata.Proofs.Language

namespace SymbolAutomata

namespace Graph

open Computability

/-- The words that a graph accepts. -/
def language (g : Graph) : Language Codepoint := {w | g.Accepts w}

/-- The words that a graph accepts from a node. -/
def languageFrom (g : Graph) (p : NodeId) : Language Codepoint := {w | g.AcceptsFrom p w}

theorem mem_language {g : Graph} {w : List Codepoint} : w ∈ g.language ↔ g.Accepts w := Iff.rfl

/-- **Running decides the language.** -/
theorem run_iff_mem_language {g : Graph} {w : List Codepoint} :
    g.run w = true ↔ w ∈ g.language := run_eq_true_iff

theorem mem_languageFrom {g : Graph} {p : NodeId} {w : List Codepoint} :
    w ∈ g.languageFrom p ↔ g.AcceptsFrom p w := Iff.rfl

/-- The first factor of a word is empty or starts with a step. -/
theorem mem_languageFrom_mul {g : Graph} {p : NodeId} {L : Language Codepoint}
    {w : List Codepoint} : w ∈ g.languageFrom p * L ↔ (g.isAccept p = true ∧ w ∈ L) ∨
      ∃ c v q, w = c :: v ∧ q ∈ g.targets p c ∧ v ∈ g.languageFrom q * L := by
  simp only [Language.mem_mul, mem_languageFrom]
  constructor
  · intro hfound
    rcases hfound with ⟨u, hu, v, hv, rfl⟩
    cases u with
    | nil => exact Or.inl ⟨acceptsFrom_nil_iff.1 hu, hv⟩
    | cons c u =>
      obtain ⟨q, hq, hu⟩ := acceptsFrom_cons_iff.1 hu
      exact Or.inr ⟨c, u ++ v, q, rfl, hq, u, hu, v, hv, rfl⟩
  · intro hcase
    rcases hcase with ⟨hp, hw⟩ | ⟨c, v, q, rfl, hq, u, hu, v', hv', rfl⟩
    · exact ⟨[], acceptsFrom_nil_iff.2 hp, w, hw, rfl⟩
    · exact ⟨c :: u, acceptsFrom_cons_iff.2 ⟨q, hq, hu⟩, v', hv', rfl⟩

/-! ### Splicing, one step at a time -/

theorem mem_map_mk_left {ns : List NodeId} {r p q : NodeId} :
    (p, q) ∈ ns.map (fun n => (r, n)) ↔ p = r ∧ q ∈ ns := by
  simp only [List.mem_map, Prod.mk.injEq]
  constructor
  · intro hfound
    rcases hfound with ⟨n, hn, rfl, rfl⟩
    exact ⟨rfl, hn⟩
  · intro hboth
    rcases hboth with ⟨rfl, hq⟩
    exact ⟨q, hq, rfl, rfl⟩

theorem mem_map_mk_right {ns : List NodeId} {r p q : NodeId} :
    (p, q) ∈ ns.map (fun n => (n, r)) ↔ p ∈ ns ∧ q = r := by
  simp only [List.mem_map, Prod.mk.injEq]
  constructor
  · intro hfound
    rcases hfound with ⟨n, hn, rfl, rfl⟩
    exact ⟨hn, rfl⟩
  · intro hboth
    rcases hboth with ⟨hp, rfl⟩
    exact ⟨p, hp, rfl, rfl⟩

section Splice

variable {g : Graph} {pairs : List (NodeId × NodeId)}
  (hpairs : ∀ e ∈ pairs, g.contains e.1 = true)

include hpairs

theorem acceptsFrom_splice_step {p : NodeId} {w : List Codepoint} :
    (g.splice pairs).AcceptsFrom p w ↔ (w = [] ∧ g.isAccept p = true) ∨
      (∃ q, (p, q) ∈ pairs ∧ (g.splice pairs).AcceptsFrom q w) ∨
      ∃ c v q, w = c :: v ∧ q ∈ g.targets p c ∧ (g.splice pairs).AcceptsFrom q v := by
  simp only [acceptsFrom_splice hpairs]
  constructor
  · intro hfound
    rcases hfound with ⟨r, path, hr⟩
    cases path with
    | stay _ => exact Or.inl ⟨rfl, hr⟩
    | silent pair rest => exact Or.inr (Or.inl ⟨_, pair, r, rest, hr⟩)
    | read dest rest => exact Or.inr (Or.inr ⟨_, _, _, rfl, dest, r, rest, hr⟩)
  · intro hcase
    rcases hcase with ⟨rfl, hp⟩ | ⟨q, pair, r, rest, hr⟩ | ⟨c, v, q, rfl, dest, r, rest, hr⟩
    · exact ⟨p, .stay p, hp⟩
    · exact ⟨r, .silent pair rest, hr⟩
    · exact ⟨r, .read dest rest, hr⟩

/-- **Where no silent move starts**, a copy accepts what its part accepts. -/
theorem acceptsFrom_splice_named {part : Graph} {names : List (NodeId × NodeId)}
    (h : Follows part g names)
    (hflags : ∀ m x, (m, x) ∈ names → g.isAccept x = part.isAccept m)
    (hquiet : ∀ m x, (m, x) ∈ names → ∀ q, (x, q) ∉ pairs) {m x : NodeId} (hx : (m, x) ∈ names)
    {w : List Codepoint} : (g.splice pairs).AcceptsFrom x w ↔ part.AcceptsFrom m w := by
  induction w generalizing m x with
  | nil =>
    rw [acceptsFrom_splice_step hpairs, acceptsFrom_nil_iff, hflags m x hx]
    constructor
    · intro hcase
      rcases hcase with ⟨-, hm⟩ | ⟨q, pair, -⟩ | ⟨c, v, q, heq, -⟩
      · exact hm
      · exact absurd pair (hquiet m x hx q)
      · cases heq
    · exact fun hm => Or.inl ⟨rfl, hm⟩
  | cons c w ih =>
    rw [acceptsFrom_splice_step hpairs, acceptsFrom_cons_iff]
    constructor
    · intro hcase
      rcases hcase with ⟨heq, -⟩ | ⟨q, pair, -⟩ | ⟨d, v, y, heq, hy, hacc⟩
      · cases heq
      · exact absurd pair (hquiet m x hx q)
      · obtain ⟨rfl, rfl⟩ := List.cons.inj heq
        obtain ⟨n, hn, hdest⟩ := (h.targets hx).1 hy
        exact ⟨n, hdest, (ih hn).1 hacc⟩
    · intro hfound
      rcases hfound with ⟨n, hdest, hacc⟩
      obtain ⟨y, hy, hn⟩ := h.exists_target hx hdest
      exact Or.inr (Or.inr ⟨c, w, y, rfl, hy, (ih hn).2 hacc⟩)

/-- **Where accepting nodes move silently to one exit**, a copy accepts what its part accepts,
    followed by what the exit accepts. -/
theorem acceptsFrom_splice_exit {part : Graph} {names : List (NodeId × NodeId)} {exit : NodeId}
    (h : Follows part g names)
    (hexit : ∀ m x, (m, x) ∈ names → ∀ q, (x, q) ∈ pairs ↔ part.isAccept m = true ∧ q = exit)
    (hflags : ∀ m x, (m, x) ∈ names → g.isAccept x = true →
      part.isAccept m = true ∧ (g.splice pairs).AcceptsFrom exit [])
    {m x : NodeId} (hx : (m, x) ∈ names) {w : List Codepoint} :
    (g.splice pairs).AcceptsFrom x w ↔
      w ∈ part.languageFrom m * (g.splice pairs).languageFrom exit := by
  induction w generalizing m x with
  | nil =>
    rw [acceptsFrom_splice_step hpairs, mem_languageFrom_mul]
    constructor
    · intro hcase
      rcases hcase with ⟨-, hacc⟩ | ⟨q, pair, hacc⟩ | ⟨c, v, q, heq, -⟩
      · exact Or.inl (hflags m x hx hacc)
      · obtain ⟨hm, rfl⟩ := (hexit m x hx q).1 pair
        exact Or.inl ⟨hm, hacc⟩
      · cases heq
    · intro hcase
      rcases hcase with ⟨hm, hacc⟩ | ⟨c, v, q, heq, -⟩
      · exact Or.inr (Or.inl ⟨exit, (hexit m x hx exit).2 ⟨hm, rfl⟩, hacc⟩)
      · cases heq
  | cons c w ih =>
    rw [acceptsFrom_splice_step hpairs, mem_languageFrom_mul]
    constructor
    · intro hcase
      rcases hcase with ⟨heq, -⟩ | ⟨q, pair, hacc⟩ | ⟨d, v, y, heq, hy, hacc⟩
      · cases heq
      · obtain ⟨hm, rfl⟩ := (hexit m x hx q).1 pair
        exact Or.inl ⟨hm, hacc⟩
      · obtain ⟨rfl, rfl⟩ := List.cons.inj heq
        obtain ⟨n, hn, hdest⟩ := (h.targets hx).1 hy
        exact Or.inr ⟨c, w, n, rfl, hdest, (ih hn).1 hacc⟩
    · intro hcase
      rcases hcase with ⟨hm, hacc⟩ | ⟨d, v, n, heq, hdest, hacc⟩
      · exact Or.inr (Or.inl ⟨exit, (hexit m x hx exit).2 ⟨hm, rfl⟩, hacc⟩)
      · obtain ⟨rfl, rfl⟩ := List.cons.inj heq
        obtain ⟨y, hy, hn⟩ := h.exists_target hx hdest
        exact Or.inr (Or.inr ⟨c, w, y, rfl, hy, (ih hn).2 hacc⟩)

end Splice

/-- A missing initial node accepts nothing, so that only named ones matter. -/
theorem accepts_iff_named {part : Graph} {names : List (NodeId × NodeId)}
    (hcovers : ∀ n, part.contains n = true → ∃ p, (n, p) ∈ names) {w : List Codepoint} :
    part.Accepts w ↔ ∃ i p, part.initial = some i ∧ (i, p) ∈ names ∧ part.AcceptsFrom i w := by
  constructor
  · intro hfound
    rcases hfound with ⟨i, hi, hacc⟩
    by_cases hc : part.contains i = true
    · obtain ⟨p, hp⟩ := hcovers i hc
      exact ⟨i, p, hi, hp, hacc⟩
    · exact absurd hacc (not_acceptsFrom_of_not_contains (Bool.eq_false_iff.2 hc))
  · intro hfound
    rcases hfound with ⟨i, p, hi, -, hacc⟩
    exact ⟨i, hi, hacc⟩

/-! ### Starting from one node -/

/-- The graph of one node, which is initial. -/
def single (accept : Bool) : Graph := (empty.addNode accept).setInitial 0

theorem contains_single {accept : Bool} {n : NodeId} :
    (single accept).contains n = true ↔ n = 0 := by
  have hflag : (single accept).flag? n = if n = 0 then some accept else none := flag?_addNode ..
  rw [contains_eq_isSome, hflag]
  split <;> simp [*]

theorem isAccept_single (accept : Bool) : (single accept).isAccept 0 = accept := rfl

theorem not_arrow_single {accept : Bool} {p q : NodeId} {i : Interval} :
    ¬ (single accept).Arrow p i q := by
  intro hfound
  rcases hfound with ⟨a, ha, -⟩
  cases ha

theorem not_mem_targets_single {accept : Bool} {p q : NodeId} {c : Codepoint} :
    q ∉ (single accept).targets p c := by
  intro hq
  obtain ⟨i, arrow, -⟩ := mem_targets.1 hq
  exact not_arrow_single arrow

/-! ### Union -/

section Union

variable {a b : Graph} {left right : Copy} (hleft : Adopted (single false) a left)
  (hright : Adopted left.whole b right)

include hleft hright

theorem accepts_splice_union {pairs : List (NodeId × NodeId)}
    (hpair : ∀ p q, (p, q) ∈ pairs ↔ p = 0 ∧
      ((∃ i, a.initial = some i ∧ (i, q) ∈ left.names) ∨
        ∃ j, b.initial = some j ∧ (j, q) ∈ right.names)) {w : List Codepoint} :
    (right.whole.splice pairs).Accepts w ↔ a.Accepts w ∨ b.Accepts w := by
  have hnew : (single false).contains 0 = true := contains_single.2 rfl
  have hzero : left.whole.contains 0 = true := hleft.contains_old hnew
  have hpairs : ∀ e ∈ pairs, right.whole.contains e.1 = true := by
    rintro ⟨p, q⟩ he
    rw [((hpair p q).1 he).1]
    exact hright.contains_old hzero
  -- silent moves start at the new node only, which is in neither copy
  have hl : ∀ {m x}, (m, x) ∈ left.names →
      ((right.whole.splice pairs).AcceptsFrom x w ↔ a.AcceptsFrom m w) := by
    refine fun hx => acceptsFrom_splice_named hpairs
      (hleft.follows.adopt hright fun _ _ hn => hleft.contains_name hn) ?_ ?_ hx
    · intro m x hx
      rw [hright.unflagged x (hleft.contains_name hx), hleft.flagged m x hx]
    · intro m x hx q he
      rw [((hpair x q).1 he).1] at hx
      exact hleft.not_name_of_contains hnew hx
  have hr : ∀ {m x}, (m, x) ∈ right.names →
      ((right.whole.splice pairs).AcceptsFrom x w ↔ b.AcceptsFrom m w) := by
    refine fun hx => acceptsFrom_splice_named hpairs hright.follows hright.flagged ?_ hx
    intro m x hx q he
    rw [((hpair x q).1 he).1] at hx
    exact hright.not_name_of_contains hzero hx
  have hinitial : (right.whole.splice pairs).initial = some 0 := by
    rw [initial_splice, hright.initial, hleft.initial]
    rfl
  have haccept : right.whole.isAccept 0 = false := by
    rw [hright.unflagged 0 hzero, hleft.unflagged 0 hnew, isAccept_single]
  have hstuck : ∀ c q, q ∉ right.whole.targets 0 c := by
    intro c q hq
    rw [hright.mem_targets_old hzero, hleft.mem_targets_old hnew] at hq
    exact not_mem_targets_single hq
  rw [accepts_iff_of_initial hinitial, acceptsFrom_splice_step hpairs, haccept,
    accepts_iff_named hleft.follows.covers, accepts_iff_named hright.follows.covers]
  constructor
  · intro hcase
    rcases hcase with ⟨-, hfalse⟩ | ⟨q, pair, hacc⟩ | ⟨c, v, q, -, hq, -⟩
    · cases hfalse
    · rcases ((hpair 0 q).1 pair).2 with ⟨i, hi, hq⟩ | ⟨j, hj, hq⟩
      · exact Or.inl ⟨i, q, hi, hq, (hl hq).1 hacc⟩
      · exact Or.inr ⟨j, q, hj, hq, (hr hq).1 hacc⟩
    · exact absurd hq (hstuck c q)
  · intro hcase
    rcases hcase with ⟨i, p, hi, hp, hacc⟩ | ⟨j, p, hj, hp, hacc⟩
    · have pair := (hpair 0 p).2 ⟨rfl, Or.inl ⟨i, hi, hp⟩⟩
      exact Or.inr (Or.inl ⟨p, pair, (hl hp).2 hacc⟩)
    · have pair := (hpair 0 p).2 ⟨rfl, Or.inr ⟨j, hj, hp⟩⟩
      exact Or.inr (Or.inl ⟨p, pair, (hr hp).2 hacc⟩)

end Union

theorem Adopted.bind_name?_eq_some_iff {g part : Graph} {c : Copy} (h : Adopted g part c)
    {p : NodeId} : part.initial.bind c.name? = some p ↔
      ∃ i, part.initial = some i ∧ (i, p) ∈ c.names := by
  simp only [Option.bind_eq_some_iff, h.name?_eq_some_iff]

/-- **Union.** -/
theorem language_union (a b : Graph) : (a.union b).language = a.language + b.language := by
  have hleft := adopted_adopt (single false) a
  have hright := adopted_adopt ((single false).adopt a).whole b
  ext w
  rw [Language.mem_add]
  refine accepts_prune.trans (accepts_splice_union hleft hright ?_)
  intro p q
  rw [mem_map_mk_left, List.reduceOption_mem_iff]
  simp only [List.mem_cons, List.not_mem_nil, or_false]
  rw [← hleft.bind_name?_eq_some_iff, ← hright.bind_name?_eq_some_iff, eq_comm (a := some q),
    eq_comm (a := some q)]
  rfl

/-! ### Concatenation -/

theorem Adopted.mem_ends {g part : Graph} {c : Copy} (h : Adopted g part c) {x : NodeId} :
    x ∈ part.acceptIds.filterMap c.name? ↔ ∃ m, part.isAccept m = true ∧ (m, x) ∈ c.names := by
  simp only [List.mem_filterMap, acceptIds, List.mem_filter, mem_nodeIds, h.name?_eq_some_iff]
  constructor
  · intro hfound
    rcases hfound with ⟨m, ⟨-, hm⟩, hx⟩
    exact ⟨m, hm, hx⟩
  · intro hfound
    rcases hfound with ⟨m, hm, hx⟩
    exact ⟨m, ⟨contains_of_isAccept hm, hm⟩, hx⟩

section Concatenate

variable {a b : Graph} {left right : Copy} (hleft : Adopted empty a left)
  (hright : Adopted left.whole b right)

include hleft hright

theorem accepts_splice_concatenate {i j start join : NodeId} {ends : List NodeId}
    {pairs : List (NodeId × NodeId)} (hi : a.initial = some i) (hj : b.initial = some j)
    (hstart : (i, start) ∈ left.names) (hjoin : (j, join) ∈ right.names)
    (hends : ∀ x, x ∈ ends ↔ ∃ m, a.isAccept m = true ∧ (m, x) ∈ left.names)
    (hpair : ∀ p q, (p, q) ∈ pairs ↔ p ∈ ends ∧ q = join) {w : List Codepoint} :
    (((right.whole.setInitial start).setAcceptAll ends false).splice pairs).Accepts w ↔
      w ∈ a.language * b.language := by
  have hapart : ∀ {m n x}, (m, x) ∈ left.names → (n, x) ∉ right.names :=
    fun hx => hright.not_name_of_contains (hleft.contains_name hx)
  have htargets : ∀ x y c,
      y ∈ ((right.whole.setInitial start).setAcceptAll ends false).targets x c ↔
        y ∈ right.whole.targets x c := by
    intro x y c
    simp only [mem_targets, arrow_setAcceptAll]
    rfl
  have hwhole : ∀ {x}, right.whole.contains x = true →
      ((right.whole.setInitial start).setAcceptAll ends false).isAccept x =
        if x ∈ ends then false else right.whole.isAccept x := by
    intro x hx
    have hc : (right.whole.setInitial start).contains x = true := hx
    rw [isAccept_setAcceptAll]
    simp only [hc, and_true]
    rfl
  have hpairs : ∀ e ∈ pairs,
      ((right.whole.setInitial start).setAcceptAll ends false).contains e.1 = true := by
    rintro ⟨p, q⟩ he
    obtain ⟨m, -, hx⟩ := (hends p).1 ((hpair p q).1 he).1
    rw [contains_setAcceptAll]
    exact hright.contains_old (hleft.contains_name hx)
  generalize hg : (right.whole.setInitial start).setAcceptAll ends false = g at *
  have hr : ∀ {v}, (g.splice pairs).AcceptsFrom join v ↔ b.Accepts v := by
    intro v
    rw [accepts_iff_of_initial hj]
    refine acceptsFrom_splice_named hpairs (hright.follows.of_targets htargets) ?_ ?_ hjoin
    · intro n x hx
      have hend : x ∉ ends := by
        intro he
        obtain ⟨m, -, hm⟩ := (hends x).1 he
        exact hapart hm hx
      rw [hwhole (hright.contains_name hx), if_neg hend, hright.flagged n x hx]
    · intro n x hx q he
      obtain ⟨m, -, hm⟩ := (hends x).1 ((hpair x q).1 he).1
      exact hapart hm hx
  have hl : ∀ {v}, (g.splice pairs).AcceptsFrom start v ↔
      v ∈ a.languageFrom i * (g.splice pairs).languageFrom join := by
    intro v
    refine acceptsFrom_splice_exit hpairs ((hleft.follows.adopt hright
      fun _ _ hn => hleft.contains_name hn).of_targets htargets) ?_ ?_ hstart
    · intro m x hx q
      rw [hpair, hends]
      refine and_congr_left fun _ => ?_
      constructor
      · intro hfound
        rcases hfound with ⟨n, hn, hx'⟩
        rwa [hleft.name_inj hx hx']
      · exact fun hm => ⟨m, hm, hx⟩
    · -- no node of the first copy accepts any more
      intro m x hx hacc
      have hold := hleft.contains_name hx
      rw [hwhole (hright.contains_old hold)] at hacc
      split at hacc
      · cases hacc
      · next hend =>
        rw [hright.unflagged x hold, hleft.flagged m x hx] at hacc
        exact absurd ((hends x).2 ⟨m, hacc, hx⟩) hend
  have hinitial : (g.splice pairs).initial = some start := by
    rw [initial_splice, ← hg, initial_setAcceptAll]
    rfl
  have hi' : ∀ u, a.Accepts u ↔ a.AcceptsFrom i u := fun u => accepts_iff_of_initial hi
  rw [accepts_iff_of_initial hinitial, hl]
  simp only [Language.mem_mul, mem_languageFrom, mem_language, hr, hi']

end Concatenate

/-- **Concatenation.** -/
theorem language_concatenate (a b : Graph) :
    (a.concatenate b).language = a.language * b.language := by
  have hleft := adopted_adopt empty a
  have hright := adopted_adopt (empty.adopt a).whole b
  ext w
  rw [mem_language, concatenate]
  split
  · next start join hstart hjoin =>
    obtain ⟨i, hi, hstart⟩ := hleft.bind_name?_eq_some_iff.1 hstart
    obtain ⟨j, hj, hjoin⟩ := hright.bind_name?_eq_some_iff.1 hjoin
    exact accepts_prune.trans (accepts_splice_concatenate hleft hright hi hj hstart hjoin
      (fun _ => hleft.mem_ends) fun _ _ => mem_map_mk_right)
  · next hnone =>
    refine iff_of_false not_accepts_emptyLanguage ?_
    rw [Language.mem_mul]
    intro hfound
    rcases hfound with ⟨u, hu, v, hv, -⟩
    obtain ⟨i, p, hi, hp, -⟩ := (accepts_iff_named hleft.follows.covers).1 hu
    obtain ⟨j, q, hj, hq, -⟩ := (accepts_iff_named hright.follows.covers).1 hv
    exact hnone p q (hleft.bind_name?_eq_some_iff.2 ⟨i, hi, hp⟩)
      (hright.bind_name?_eq_some_iff.2 ⟨j, hj, hq⟩)

/-- **The words of two graphs**, either of which may lack an initial node or name one that is no
    node of it: then it accepts nothing, and its union and concatenation are those of the empty
    language. -/
theorem union_concatenate_run (a b : Graph) :
    (∀ w, (a.union b).run w = (a.run w || b.run w)) ∧
      (∀ w, (a.concatenate b).run w = true ↔
        ∃ u v, a.run u = true ∧ b.run v = true ∧ w = u ++ v) ∧
      ((∀ i, a.initial = some i → a.contains i = false) → ∀ w, a.run w = false) := by
  refine ⟨?_, ?_, ?_⟩
  · intro w
    rw [Bool.eq_iff_iff, Bool.or_eq_true, run_iff_mem_language, run_iff_mem_language,
      run_iff_mem_language, language_union, Language.mem_add]
  · intro w
    simp only [run_iff_mem_language, language_concatenate, Language.mem_mul]
    constructor
    · intro h
      obtain ⟨u, hu, v, hv, heq⟩ := h
      exact ⟨u, v, hu, hv, heq.symm⟩
    · intro h
      obtain ⟨u, v, hu, hv, heq⟩ := h
      exact ⟨u, hu, v, hv, heq.symm⟩
  · intro hnone w
    rw [Bool.eq_false_iff, ne_eq, run_eq_true_iff]
    intro h
    obtain ⟨i, hi, hacc⟩ := h
    exact not_acceptsFrom_of_not_contains (hnone i hi) hacc

/-- Two nodes in a ring, one of which is initial and accepts: the words of even length. -/
def ring : Graph := build [true, false] [(0, .single 5, 1), (1, .single 5, 0)] 0

/-- One accepting node, while the initial node is another number. -/
def stray : Graph := build [true] [] 7

theorem union_concatenate_run_stray :
    (∀ i, stray.initial = some i → stray.contains i = false) ∧ stray.run [] = false ∧
      (stray.union ring).run [5, 5] = true ∧ (ring.concatenate ring).run [5, 5] = true ∧
      (stray.concatenate ring).run [5, 5] = false := by
  have hnone : ∀ i, stray.initial = some i → stray.contains i = false := by
    intro i hi
    obtain rfl := Option.some.inj hi
    decide
  have hempty := (union_concatenate_run stray ring).2.2 hnone
  have heven : ring.run [5, 5] = true := by decide
  refine ⟨hnone, hempty [], ?_, ?_, ?_⟩
  · rw [(union_concatenate_run stray ring).1, heven, Bool.or_true]
  · exact ((union_concatenate_run ring ring).2.1 _).2 ⟨[], [5, 5], by decide, heven, rfl⟩
  · rw [Bool.eq_false_iff, ne_eq, (union_concatenate_run stray ring).2.1]
    intro h
    obtain ⟨u, v, hu, -⟩ := h
    exact Bool.false_ne_true ((hempty u).symm.trans hu)

/-! ### Repetition -/

section Star

variable {a : Graph} {copy : Copy} (h : Adopted (single true) a copy)
  {pairs : List (NodeId × NodeId)} (hpair : ∀ p q, (p, q) ∈ pairs ↔
    (p = 0 ∧ ∃ i, a.initial = some i ∧ (i, q) ∈ copy.names) ∨
      (∃ m, a.isAccept m = true ∧ (m, p) ∈ copy.names) ∧ q = 0)

include h

theorem not_name_zero {m : NodeId} : (m, 0) ∉ copy.names :=
  h.not_name_of_contains (contains_single.2 rfl)

include hpair

theorem contains_of_mem_loop : ∀ e ∈ pairs, copy.whole.contains e.1 = true := by
  rintro ⟨p, q⟩ he
  rcases (hpair p q).1 he with ⟨rfl, -⟩ | ⟨⟨m, -, hm⟩, -⟩
  · exact h.contains_old (contains_single.2 rfl)
  · exact h.contains_name hm

theorem acceptsFrom_loop_nil : (copy.whole.splice pairs).AcceptsFrom 0 [] := by
  refine (acceptsFrom_splice_step (contains_of_mem_loop h hpair)).2 (Or.inl ⟨rfl, ?_⟩)
  rw [h.unflagged 0 (contains_single.2 rfl), isAccept_single]

theorem acceptsFrom_loop_iff {m x : NodeId} (hx : (m, x) ∈ copy.names) {w : List Codepoint} :
    (copy.whole.splice pairs).AcceptsFrom x w ↔
      w ∈ a.languageFrom m * (copy.whole.splice pairs).languageFrom 0 := by
  refine acceptsFrom_splice_exit (contains_of_mem_loop h hpair) h.follows ?_ ?_ hx
  · intro m x hx q
    rw [hpair]
    constructor
    · intro hcase
      rcases hcase with ⟨rfl, -⟩ | ⟨⟨n, hn, hx'⟩, rfl⟩
      · exact absurd hx (not_name_zero h)
      · exact ⟨h.name_inj hx hx' ▸ hn, rfl⟩
    · intro hboth
      rcases hboth with ⟨hm, rfl⟩
      exact Or.inr ⟨⟨m, hm, hx⟩, rfl⟩
  · intro m x hx hacc
    rw [h.flagged m x hx] at hacc
    exact ⟨hacc, acceptsFrom_loop_nil h hpair⟩

/-- A path to an accepting node reads whole rounds, after the rest of the round it starts in. -/
theorem mem_kstar_of_wanders {p r : NodeId} {w : List Codepoint}
    (path : Wanders copy.whole pairs p w r) (hr : copy.whole.isAccept r = true) :
    (p = 0 → w ∈ a.language∗) ∧
      ∀ m, (m, p) ∈ copy.names → w ∈ a.languageFrom m * a.language∗ := by
  induction path with
  | stay p =>
    refine ⟨fun _ => Language.nil_mem_kstar _, fun m hm => ?_⟩
    rw [h.flagged m p hm] at hr
    exact mem_languageFrom_mul.2 (Or.inl ⟨hr, Language.nil_mem_kstar _⟩)
  | @silent p q r w pair _ ih =>
    rcases (hpair p q).1 pair with ⟨rfl, i, hi, hq⟩ | ⟨⟨m, hacc, hm⟩, rfl⟩
    · refine ⟨fun _ => ?_, fun m hm => absurd hm (not_name_zero h)⟩
      obtain ⟨u, hu, v, hv, rfl⟩ := Language.mem_mul.1 ((ih hr).2 i hq)
      have hfirst : u ∈ a.language := (accepts_iff_of_initial hi).2 hu
      have hstar : a.language * a.language∗ ≤ a.language∗ := mul_kstar_le_kstar
      exact hstar (Language.append_mem_mul hfirst hv)
    · refine ⟨?_, fun n hn => ?_⟩
      · rintro rfl
        exact absurd hm (not_name_zero h)
      · rw [← h.name_inj hm hn]
        exact mem_languageFrom_mul.2 (Or.inl ⟨hacc, (ih hr).1 rfl⟩)
  | @read p q r c w dest _ ih =>
    refine ⟨?_, fun m hm => ?_⟩
    · rintro rfl
      rw [h.mem_targets_old (contains_single.2 rfl)] at dest
      exact absurd dest not_mem_targets_single
    · obtain ⟨n, hn, hdest⟩ := (h.follows.targets hm).1 dest
      exact mem_languageFrom_mul.2 (Or.inr ⟨c, w, n, rfl, hdest, (ih hr).2 n hn⟩)

theorem accepts_splice_star {w : List Codepoint} :
    (copy.whole.splice pairs).Accepts w ↔ w ∈ a.language∗ := by
  have hpairs := contains_of_mem_loop h hpair
  have hinitial : (copy.whole.splice pairs).initial = some 0 := by
    rw [initial_splice, h.initial]
    rfl
  rw [accepts_iff_of_initial hinitial]
  constructor
  · intro hacc
    obtain ⟨r, path, hr⟩ := (acceptsFrom_splice hpairs).1 hacc
    exact (mem_kstar_of_wanders h hpair path hr).1 rfl
  · rw [Language.mem_kstar]
    intro hfound
    rcases hfound with ⟨ws, rfl, hws⟩
    induction ws with
    | nil => exact acceptsFrom_loop_nil h hpair
    | cons u ws ih =>
      rw [List.forall_mem_cons] at hws
      obtain ⟨i, q, hi, hq, hu⟩ := (accepts_iff_named h.follows.covers).1 hws.1
      have hround := (acceptsFrom_loop_iff h hpair hq).2 (Language.append_mem_mul hu (ih hws.2))
      have pair : (0, q) ∈ pairs := (hpair 0 q).2 (Or.inl ⟨rfl, i, hi, hq⟩)
      exact (acceptsFrom_splice_step hpairs).2 (Or.inr (Or.inl ⟨q, pair, hround⟩))

end Star

/-- **Repetition.** -/
theorem language_star (a : Graph) : a.star.language = a.language∗ := by
  have h := adopted_adopt (single true) a
  ext w
  refine accepts_prune.trans (accepts_splice_star h ?_)
  intro p q
  rw [← h.mem_ends, ← h.bind_name?_eq_some_iff, List.mem_append, mem_map_mk_left,
    mem_map_mk_right, Option.mem_toList]
  rfl

/-! ### Small graphs -/

theorem language_emptyLanguage : emptyLanguage.language = 0 := by
  ext w
  exact iff_of_false not_accepts_emptyLanguage (Language.notMem_zero w)

theorem language_emptyWord : emptyWord.language = 1 := by
  ext w
  have hstuck : ∀ c q, q ∉ emptyWord.targets 0 c := by
    intro c q hq
    obtain ⟨i, ⟨a, ha, -⟩, -⟩ := mem_targets.1 hq
    cases ha
  rw [mem_language, Language.mem_one, accepts_iff_of_initial rfl]
  cases w with
  | nil => exact iff_of_true (acceptsFrom_nil_iff.2 rfl) rfl
  | cons c w =>
    rw [acceptsFrom_cons_iff]
    refine iff_of_false ?_ (List.cons_ne_nil c w)
    intro hfound
    rcases hfound with ⟨q, hq, -⟩
    exact hstuck c q hq

theorem mem_targets_oneOf {labels : List Interval} {p q : NodeId} {c : Codepoint} :
    q ∈ (oneOf labels).targets p c ↔ p = 0 ∧ q = 1 ∧ ∃ i ∈ labels, i.contains c = true := by
  simp only [mem_targets, oneOf, arrow_build, List.mem_map, Prod.mk.injEq]
  constructor
  · intro hfound
    rcases hfound with ⟨i, ⟨⟨j, hj, rfl, rfl, rfl⟩, -, -⟩, hc⟩
    exact ⟨rfl, rfl, j, hj, hc⟩
  · intro hfound
    rcases hfound with ⟨rfl, rfl, i, hi, hc⟩
    exact ⟨i, ⟨⟨i, hi, rfl, rfl, rfl⟩, by decide, by decide⟩, hc⟩

/-- **One step** over the labels. -/
theorem language_oneOf (labels : List Interval) :
    (oneOf labels).language = letters fun c => ∃ i ∈ labels, i.contains c = true := by
  have hend : ∀ {v}, (oneOf labels).AcceptsFrom 1 v ↔ v = [] := by
    intro v
    cases v with
    | nil =>
      rw [acceptsFrom_nil_iff, oneOf, isAccept_build]
      exact iff_of_true rfl rfl
    | cons d v =>
      rw [acceptsFrom_cons_iff]
      refine iff_of_false ?_ (List.cons_ne_nil d v)
      intro hfound
      rcases hfound with ⟨q, hq, -⟩
      exact absurd (mem_targets_oneOf.1 hq).1 (by decide)
  have hinitial : (oneOf labels).initial = some 0 := rfl
  ext w
  rw [mem_language, accepts_iff_of_initial hinitial, mem_letters]
  cases w with
  | nil =>
    rw [acceptsFrom_nil_iff, oneOf, isAccept_build]
    refine iff_of_false Bool.false_ne_true ?_
    intro hfound
    rcases hfound with ⟨c, -, heq⟩
    cases heq
  | cons d v =>
    rw [acceptsFrom_cons_iff]
    constructor
    · intro hfound
      rcases hfound with ⟨q, hq, hacc⟩
      obtain ⟨-, rfl, hd⟩ := mem_targets_oneOf.1 hq
      obtain rfl := hend.1 hacc
      exact ⟨d, hd, rfl⟩
    · intro hfound
      rcases hfound with ⟨c, hc, heq⟩
      obtain ⟨rfl, rfl⟩ := List.cons.inj heq
      exact ⟨1, mem_targets_oneOf.2 ⟨rfl, rfl, hc⟩, hend.2 rfl⟩

/-! ### Counted repetition -/

theorem language_optional (a : Graph) : a.optional.language = a.language + 1 := by
  rw [optional, language_union, language_emptyWord]

theorem language_repeat_concatenate_left (a b : Graph) (k : Nat) :
    (Nat.repeat a.concatenate k b).language = a.language ^ k * b.language := by
  induction k with
  | zero => rw [pow_zero, one_mul, Nat.repeat]
  | succ k ih => rw [Nat.repeat, language_concatenate, ih, pow_succ', mul_assoc]

theorem language_repeat_concatenate_right (a b : Graph) (k : Nat) :
    (Nat.repeat (·.concatenate a) k b).language = b.language * a.language ^ k := by
  induction k with
  | zero => rw [pow_zero, mul_one, Nat.repeat]
  | succ k ih => rw [Nat.repeat, language_concatenate, ih, pow_succ, mul_assoc]

/-- **At least so many repetitions.** -/
theorem language_repeatMin (a : Graph) (least : Nat) :
    (a.repeatMin least).language = repeated a.language (least ≤ ·) := by
  rw [repeatMin, language_repeat_concatenate_left, language_star, pow_mul_kstar]

/-- **A bounded number of repetitions.** -/
theorem language_repeatRange (a : Graph) (least most : Nat) :
    (a.repeatRange least most).language =
      repeated a.language fun k => least ≤ k ∧ k ≤ most := by
  unfold repeatRange
  split
  · next h =>
    rw [language_emptyLanguage, repeated_eq_zero]
    intro k hk
    exact absurd (Nat.le_trans hk.1 hk.2) (Nat.not_le_of_lt h)
  · next h =>
    rw [language_repeat_concatenate_right, language_repeat_concatenate_right, language_optional,
      language_emptyWord, one_mul, pow_mul_optional_pow _ (Nat.le_of_not_lt h)]

/-- **The words of repetitions**, whatever the graph: it may accept the empty word, lack an initial
    node, or let arrows enter its initial node or leave its accepting ones.  Between bounds that are
    not in order there is no number of factors, and so no word. -/
theorem repetitions_run (a : Graph) :
    (∀ w, a.star.run w = true ↔
        ∃ ws : List (List Codepoint), (∀ v ∈ ws, a.run v = true) ∧ w = ws.flatten) ∧
      (∀ least w, (a.repeatMin least).run w = true ↔
        ∃ ws : List (List Codepoint),
          least ≤ ws.length ∧ (∀ v ∈ ws, a.run v = true) ∧ w = ws.flatten) ∧
      (∀ least most w, (a.repeatRange least most).run w = true ↔
        ∃ ws : List (List Codepoint), (least ≤ ws.length ∧ ws.length ≤ most) ∧
          (∀ v ∈ ws, a.run v = true) ∧ w = ws.flatten) ∧
      ∀ w, a.optional.run w = true ↔ w = [] ∨ a.run w = true := by
  simp only [run_iff_mem_language]
  refine ⟨?_, ?_, ?_, ?_⟩
  · intro w
    rw [language_star, Language.mem_kstar]
    exact exists_congr fun ws => and_comm
  · intro least w
    rw [language_repeatMin]
    rfl
  · intro least most w
    rw [language_repeatRange]
    rfl
  · intro w
    rw [language_optional, Language.mem_add, Language.mem_one]
    exact or_comm

end Graph

end SymbolAutomata
