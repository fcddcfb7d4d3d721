/-
  SymbolAutomata/Proofs/Refinement/Ledger.lean
  ============================================
  **Partition refinement with a ledger.**

  A partition says which states share a block and which blocks wait.  A ledger keeps, next to
  the blocks and the stack of waiting ones, the number of the block of each state and a mark on
  each waiting block, so that neither has to be searched for; the states that enter a block
  are looked up in lists made beforehand (`predecessors`).

  A ledger is in order if it is the one of a partition (`Partition.ledger`).  A block that is
  split by the list of its hits leaves a ledger in order (`split_ledger`), and so does the
  splitting of all affected blocks of a letter, in whatever order they are listed
  (`foldl_split_ledger`).
-/
import Mathlib.Data.List.ProdSigma
import SymbolAutomata.Proofs.Refinement.Coarsest

namespace SymbolAutomata

namespace Table

/-- The table with the given cells, row by row, one row for each state. -/
def ofCells (size letters : Nat) (cells : List (Option Nat)) (accepting : List Bool) : Table where
  size := size
  letters := letters
  next i c := (cells[i * letters + c]?).join
  accepting i := accepting.getD i false

theorem closed_ofCells {size letters : Nat} {cells : List (Option Nat)} {accepting : List Bool}
    (hcells : ∀ j, some j ∈ cells → j < size) : (ofCells size letters cells accepting).Closed := by
  intro i c j _ hj
  apply hcells j
  exact List.mem_of_getElem? (Option.join_eq_some_iff.1 hj)

/-! ### The states that enter a block -/

/-- Enters one move in the list for its destination and letter. -/
def enter (t : Table) (lists : List (List Nat)) (cell : Nat × Nat) : List (List Nat) :=
  match t.next cell.1 cell.2 with
  | some j => lists.modify (j * t.letters + cell.2) (· ++ [cell.1])
  | none => lists

/-- For each state and letter, row by row, the states that lead there over the letter. -/
def predecessors (t : Table) : List (List Nat) :=
  ((List.range t.size).product (List.range t.letters)).foldl t.enter
    (List.replicate (t.size * t.letters) [])

theorem cell_lt {j c n k : Nat} (hj : j < n) (hc : c < k) : j * k + c < n * k := by
  calc j * k + c < j * k + k := Nat.add_lt_add_left hc _
    _ = (j + 1) * k := (Nat.succ_mul j k).symm
    _ ≤ n * k := Nat.mul_le_mul_right k hj

/-- Each place of a table belongs to one row and one column. -/
theorem cell_inj {i j c d k : Nat} (hc : c < k) (hd : d < k) (h : i * k + c = j * k + d) :
    i = j ∧ c = d := by
  have hpos : 0 < k := Nat.zero_lt_of_lt hc
  have hrow : (i * k + c) / k = (j * k + d) / k := by rw [h]
  rw [Nat.mul_comm i, Nat.mul_comm j, Nat.mul_add_div hpos, Nat.mul_add_div hpos,
    Nat.div_eq_of_lt hc, Nat.div_eq_of_lt hd] at hrow
  obtain rfl : i = j := by simpa using hrow
  exact ⟨rfl, Nat.add_left_cancel h⟩

theorem length_enter (t : Table) (lists : List (List Nat)) (e : Nat × Nat) :
    (t.enter lists e).length = lists.length := by
  unfold enter
  split <;> simp

theorem mem_enter {t : Table} {lists : List (List Nat)} {i d j c x : Nat} (hd : d < t.letters)
    (hc : c < t.letters) (hlength : j * t.letters + c < lists.length) :
    x ∈ (t.enter lists (i, d)).getD (j * t.letters + c) [] ↔
      x ∈ lists.getD (j * t.letters + c) [] ∨ (x, c) = (i, d) ∧ t.next x c = some j := by
  unfold enter
  simp only [Prod.mk.injEq]
  cases hnext : t.next i d with
  | none =>
    simp only [iff_self_or, and_imp]
    rintro rfl rfl hsome
    rw [hnext] at hsome
    cases hsome
  | some j' =>
    simp only [List.getD_eq_getElem?_getD, List.getElem?_modify]
    by_cases hplace : j' * t.letters + d = j * t.letters + c
    · obtain ⟨rfl, rfl⟩ := cell_inj hd hc hplace
      simp only [List.getElem?_eq_getElem hlength, if_pos, Option.map_eq_map, Option.map_some,
        Option.getD_some, List.mem_append, List.mem_singleton, and_true]
      refine or_congr_right ⟨?_, And.left⟩
      rintro rfl
      exact ⟨rfl, hnext⟩
    · simp only [if_neg hplace, Option.map_eq_map, Option.map_id', iff_self_or, and_imp]
      rintro rfl rfl hsome
      rw [hnext] at hsome
      exact absurd (by rw [Option.some.inj hsome]) hplace

theorem mem_foldl_enter {t : Table} {entries : List (Nat × Nat)}
    (hentries : ∀ e ∈ entries, e.2 < t.letters) {lists : List (List Nat)} {j c x : Nat}
    (hc : c < t.letters) (hlength : j * t.letters + c < lists.length) :
    x ∈ (entries.foldl t.enter lists).getD (j * t.letters + c) [] ↔
      x ∈ lists.getD (j * t.letters + c) [] ∨ (x, c) ∈ entries ∧ t.next x c = some j := by
  induction entries generalizing lists with
  | nil => simp
  | cons e entries ih =>
    have hlater : j * t.letters + c < (t.enter lists e).length := by rwa [length_enter]
    rw [List.foldl_cons, ih (fun e he => hentries e (List.mem_cons_of_mem _ he)) hlater,
      mem_enter (hentries e (List.mem_cons_self ..)) hc hlength, List.mem_cons, or_and_right,
      or_assoc]

/-- **The lists of predecessors are complete.** -/
theorem mem_predecessors {t : Table} {j c x : Nat} (hj : j < t.size) (hc : c < t.letters) :
    x ∈ t.predecessors.getD (j * t.letters + c) [] ↔ x < t.size ∧ t.next x c = some j := by
  have hcell := cell_lt hj hc
  have hentries : ∀ e ∈ (List.range t.size).product (List.range t.letters), e.2 < t.letters := by
    rintro ⟨i, d⟩ he
    exact List.mem_range.1 (List.mem_product.1 he).2
  unfold predecessors
  rw [mem_foldl_enter hentries hc (by rwa [List.length_replicate]), List.getD_replicate _ hcell]
  simp [hc]

/-- The states that enter one of the given states over letter `c`. -/
def hits (t : Table) (splitter : List Nat) (c : Nat) : List Nat :=
  splitter.flatMap fun j => t.predecessors.getD (j * t.letters + c) []

theorem mem_hits {t : Table} {splitter : List Nat} {c x : Nat}
    (hsplitter : ∀ j ∈ splitter, j < t.size) (hc : c < t.letters) :
    x ∈ t.hits splitter c ↔ x ∈ t.entering splitter c := by
  rw [hits, List.mem_flatMap, mem_entering]
  constructor
  · rintro ⟨j, hj, hx⟩
    obtain ⟨hlt, hnext⟩ := (mem_predecessors (hsplitter j hj) hc).1 hx
    exact ⟨hlt, j, hj, hnext⟩
  · rintro ⟨hlt, j, hj, hnext⟩
    exact ⟨j, hj, (mem_predecessors (hsplitter j hj) hc).2 ⟨hlt, hnext⟩⟩

/-! ### Ledgers -/

/-- **A partition with what the refinement keeps about it.** -/
@[ext] structure Ledger where
  blocks : List (List Nat)
  /-- For each state the number of its block. -/
  places : List Nat
  /-- For each block whether it waits. -/
  marks : List Bool
  /-- The stack of the blocks that wait, its top first. -/
  waiting : List Nat

namespace Ledger

/-- Adds a block that waits, unless it is empty. -/
def add (s : Ledger) (block : List Nat) : Ledger :=
  if block.isEmpty then s
  else
    let new := s.blocks.length
    ⟨s.blocks ++ [block], block.foldl (fun places i => places.set i new) s.places,
      s.marks ++ [true], new :: s.waiting⟩

/-- The accepting states and the others, as far as there are any. -/
def start (t : Table) : Ledger :=
  let states := List.range t.size
  [states.filter t.accepting, states.filter (!t.accepting ·)].foldl add
    ⟨[], List.replicate t.size 0, [], []⟩

/-- Takes the top of the stack off, and the mark of the block. -/
def take (s : Ledger) (b : Nat) (rest : List Nat) : Ledger :=
  { s with marks := s.marks.set b false, waiting := rest }

/-- **Splits a block** by those of its states that are hit. The others get a new number. -/
def split (s : Ledger) (group : Nat × List Nat) : Ledger :=
  let block := s.blocks.getD group.1 []
  if group.2.length = block.length then s
  else
    let kept := block.filter group.2.contains
    let moved := block.filter (!group.2.contains ·)
    let new := s.blocks.length
    let next := if s.marks.getD group.1 false || moved.length ≤ kept.length then new else group.1
    ⟨s.blocks.set group.1 kept ++ [moved], moved.foldl (fun places i => places.set i new) s.places,
      (s.marks ++ [false]).set next true, next :: s.waiting⟩

end Ledger

/-- The ledger of a partition. -/
def Partition.ledger (p : Partition) (size : Nat) : Ledger where
  blocks := p.blocks
  places := (List.range size).map p.blockOf
  marks := (List.range p.blocks.length).map p.waiting.contains
  waiting := p.waiting

open SymbolAutomata.Table.Partition

theorem getElem?_foldl_set {places : List Nat} {moved : List Nat} {new i : Nat} :
    (moved.foldl (fun places i => places.set i new) places)[i]? =
      if i ∈ moved then (places[i]?).map fun _ => new else places[i]? := by
  induction moved generalizing places with
  | nil => simp
  | cons x moved ih =>
    rw [List.foldl_cons, ih]
    by_cases hx : x = i
    · subst hx
      rw [if_pos (List.mem_cons_self ..), List.getElem?_set_self']
      cases places[x]? <;> simp
    · simp [hx, Ne.symm hx]

theorem length_foldl_set {places moved : List Nat} {new : Nat} :
    (moved.foldl (fun places i => places.set i new) places).length = places.length := by
  induction moved generalizing places with
  | nil => rfl
  | cons i moved ih => rw [List.foldl_cons, ih, List.length_set]

/-! ### Splits -/

namespace Partition

/-- The states of block `b` that are hit, each once. -/
structure HitsIn (p : Partition) (hits : List Nat) (b : Nat) (hs : List Nat) : Prop where
  nodup : hs.Nodup
  nonempty : hs ≠ []
  mem_iff : ∀ x, x ∈ hs ↔ x ∈ p.block b ∧ x ∈ hits

section Split

variable {p : Partition} {size : Nat} {hits hs : List Nat} {b : Nat}

theorem HitsIn.kept_ne_nil (hhits : p.HitsIn hits b hs) : p.kept hits b ≠ [] := by
  obtain ⟨x, hx⟩ := List.exists_mem_of_ne_nil _ hhits.nonempty
  exact List.ne_nil_of_mem (mem_kept.2 ((hhits.mem_iff x).1 hx))

theorem HitsIn.contains_eq (hhits : p.HitsIn hits b hs) {x : Nat} (hx : x ∈ p.block b) :
    hs.contains x = hits.contains x := by
  rw [Bool.eq_iff_iff, List.contains_iff_mem, List.contains_iff_mem, hhits.mem_iff,
    and_iff_right hx]

theorem HitsIn.filter_eq_kept (hhits : p.HitsIn hits b hs) :
    (p.block b).filter hs.contains = p.kept hits b :=
  List.filter_congr fun _ hx => hhits.contains_eq hx

theorem HitsIn.filter_eq_moved (hhits : p.HitsIn hits b hs) :
    (p.block b).filter (!hs.contains ·) = p.moved hits b :=
  List.filter_congr fun _ hx => by rw [hhits.contains_eq hx]

variable (hp : p.Valid size) (hhits : p.HitsIn hits b hs)

include hp hhits

/-- **A block is hit as a whole** just when it has as many hits as states. -/
theorem HitsIn.length_eq_iff : hs.length = (p.block b).length ↔ p.moved hits b = [] := by
  have hperm : hs.Perm (p.kept hits b) := by
    refine (List.perm_ext_iff_of_nodup hhits.nodup ((hp.nodup_block b).filter _)).2 ?_
    exact fun x => (hhits.mem_iff x).trans mem_kept.symm
  have hparts : (p.kept hits b ++ p.moved hits b).length = (p.block b).length :=
    (List.filter_append_perm _ _).length_eq
  rw [List.length_append] at hparts
  rw [hperm.length_eq, ← List.length_eq_zero_iff]
  omega

theorem HitsIn.blockOf_split {i : Nat} (hi : i < size) :
    (p.split hits b).blockOf i =
      if i ∈ p.moved hits b then p.blocks.length else p.blockOf i := by
  have hvalid := hp.split hits b
  split
  · next hmoved =>
    obtain ⟨hin, hmissed⟩ := mem_moved.1 hmoved
    exact hvalid.blockOf_eq (mem_block_split_of_missed hhits.kept_ne_nil hin hmissed)
  · next hmoved =>
    have hin := hp.mem_block_blockOf hi
    by_cases hb : p.blockOf i = b
    · have hhit : i ∈ hits := by
        by_contra hmissed
        exact hmoved (mem_moved.2 ⟨hb ▸ hin, hmissed⟩)
      rw [hb] at hin ⊢
      exact hvalid.blockOf_eq (mem_block_split_of_hit hin hhit)
    · exact hvalid.blockOf_eq (mem_block_split_of_ne hb hin)

theorem HitsIn.places_split :
    (p.moved hits b).foldl (fun places i => places.set i p.blocks.length)
        ((List.range size).map p.blockOf) =
      (List.range size).map (p.split hits b).blockOf := by
  apply List.ext_getElem?
  intro i
  rw [getElem?_foldl_set, List.getElem?_map, List.getElem?_map]
  by_cases hi : i < size
  · rw [List.getElem?_range hi]
    simp only [Option.map_some, hhits.blockOf_split hp hi]
    split <;> rfl
  · rw [List.getElem?_eq_none (by simpa using hi)]
    simp

end Split

end Partition

/-- Marks follow the stack. -/
theorem marks_cons {waiting : List Nat} {count next : Nat} (hwaiting : count ∉ waiting) :
    ((List.range count).map waiting.contains ++ [false]).set next true =
      (List.range (count + 1)).map (next :: waiting).contains := by
  have hfalse : [false] = [count].map waiting.contains := by simp [hwaiting]
  rw [hfalse, ← List.map_append, ← List.range_succ]
  apply List.ext_getElem (by simp)
  intro i _ _
  rw [List.getElem_set, List.getElem_map, List.getElem_map, List.getElem_range]
  by_cases hnext : next = i
  · simp [hnext]
  · simp [hnext, Ne.symm hnext]

theorem marks_erase {b : Nat} {rest : List Nat} {count : Nat} (hb : b ∉ rest) :
    ((List.range count).map (b :: rest).contains).set b false =
      (List.range count).map rest.contains := by
  apply List.ext_getElem (by simp)
  intro i _ _
  rw [List.getElem_set, List.getElem_map, List.getElem_map, List.getElem_range]
  by_cases hbi : b = i
  · subst hbi
    simp [hb]
  · simp [hbi, Ne.symm hbi]

/-- **A split leaves the ledger in order.** -/
theorem split_ledger {p : Partition} {size : Nat} (hp : p.Valid size) {hits hs : List Nat}
    {b : Nat} (hhits : p.HitsIn hits b hs) :
    (p.ledger size).split (b, hs) = (p.split hits b).ledger size := by
  have hb := lt_length_of_kept hhits.kept_ne_nil
  have hfresh : p.blocks.length ∉ p.waiting := fun h => Nat.lt_irrefl _ (hp.waiting_lt _ h)
  have hmark : ((List.range p.blocks.length).map p.waiting.contains).getD b false =
      p.waiting.contains b := by
    rw [List.getD_eq_getElem _ _ (by simpa using hb), List.getElem_map, List.getElem_range]
  by_cases hmoved : p.moved hits b = []
  · -- all of the block is hit
    rw [split_of_pure (Or.inr hmoved)]
    exact if_pos ((hhits.length_eq_iff hp).2 hmoved)
  · have hplaces := hhits.places_split hp
    have hlength : (p.blocks.set b (p.kept hits b) ++ [p.moved hits b]).length =
        p.blocks.length + 1 := by simp
    refine (if_neg fun hall => hmoved ((hhits.length_eq_iff hp).1 hall)).trans ?_
    rw [split_of_mixed hhits.kept_ne_nil hmoved] at hplaces ⊢
    show Ledger.mk _ _ _ _ = Ledger.mk _ _ _ _
    rw [hlength, ← marks_cons hfresh, ← hplaces]
    have hget : p.blocks.getD b [] = p.block b := rfl
    simp only [Partition.ledger, hmark, hget, hhits.filter_eq_kept, hhits.filter_eq_moved]
    rfl

/-! ### The splits of one letter -/

/-- **The hits of one letter, grouped by block**: each affected block with its hits, in any
    order. -/
structure Groups (places hits : List Nat) (groups : List (Nat × List Nat)) : Prop where
  distinct : (groups.map (·.1)).Nodup
  affected : ∀ b, b ∈ groups.map (·.1) ↔ ∃ i ∈ hits, places.getD i 0 = b
  nodup : ∀ g ∈ groups, g.2.Nodup
  mem_iff : ∀ g ∈ groups, ∀ i, i ∈ g.2 ↔ i ∈ hits ∧ places.getD i 0 = g.1

/-- One way to group hits: the blocks in the order in which they are hit. -/
def group (places hits : List Nat) : List (Nat × List Nat) :=
  (fresh [] (hits.map (places.getD · 0))).map fun b =>
    (b, fresh [] (hits.filter (places.getD · 0 = b)))

theorem groups_group (places hits : List Nat) : Groups places hits (group places hits) := by
  have hkeys : (group places hits).map (·.1) = fresh [] (hits.map (places.getD · 0)) := by
    simp [group, Function.comp_def]
  refine ⟨?_, ?_, ?_, ?_⟩
  · rw [hkeys]
    exact fresh_nodup _ _
  · intro b
    rw [hkeys, mem_fresh, List.mem_map, and_iff_left List.not_mem_nil]
  · intro g hg
    obtain ⟨b, -, rfl⟩ := List.mem_map.1 hg
    exact fresh_nodup _ _
  · intro g hg i
    obtain ⟨b, -, rfl⟩ := List.mem_map.1 hg
    simp [mem_fresh]

theorem Partition.HitsIn.split {p : Partition} {hits hs : List Nat} {b b' : Nat}
    (hhits : p.HitsIn hits b hs) (hne : b ≠ b') : (p.split hits b').HitsIn hits b hs := by
  have hb := lt_length_of_kept hhits.kept_ne_nil
  refine ⟨hhits.nodup, hhits.nonempty, ?_⟩
  rw [block_split_of_ne hb hne]
  exact hhits.mem_iff

/-- **So do the splits of any number of blocks**, each by its own hits. -/
theorem foldl_split_ledger {p : Partition} {size : Nat} (hp : p.Valid size) {hits : List Nat}
    {groups : List (Nat × List Nat)} (hdistinct : (groups.map (·.1)).Nodup)
    (hgroups : ∀ g ∈ groups, p.HitsIn hits g.1 g.2) :
    groups.foldl Ledger.split (p.ledger size) =
      (p.splitAll hits (groups.map (·.1))).ledger size := by
  induction groups generalizing p with
  | nil => rfl
  | cons g groups ih =>
    obtain ⟨hg, hrest⟩ := List.nodup_cons.1 hdistinct
    rw [List.foldl_cons, split_ledger hp (hgroups g (List.mem_cons_self ..))]
    refine ih (hp.split hits g.1) hrest ?_
    intro g' hg'
    apply HitsIn.split (hgroups g' (List.mem_cons_of_mem _ hg'))
    intro heq
    exact hg (List.mem_map.2 ⟨g', hg', heq⟩)

end Table

end SymbolAutomata
