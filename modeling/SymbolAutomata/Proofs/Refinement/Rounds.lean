/-
  SymbolAutomata/Proofs/Refinement/Rounds.lean
  ============================================
  **Refinement in rounds, as long as blocks wait.**

  A round takes a block off the stack of waiting ones and splits, letter by letter, all blocks
  that it affects, in any order (`Round`).  No bound is set on the number of rounds.  Whatever
  has been chosen so far, the ledger is in order, its partition has the invariant of the
  refinement, and there are as many blocks as wait or have been taken
  (`Rounds.exists_partition`).  So there are no more rounds than blocks, and no more blocks
  than states.

  Once nothing waits, the classes are those of `classes`, whatever has been chosen
  (`Rounds.classes_eq`).
-/
import Mathlib.Data.List.Induction
import SymbolAutomata.Proofs.Refinement.Ledger

namespace SymbolAutomata

namespace Table

open SymbolAutomata.Table.Partition

/-- Works off a splitter over the given letters.  The affected blocks of each letter are split one
    after the other, in some order. -/
def Passes (t : Table) (splitter : List Nat) : List Nat → Ledger → Ledger → Prop
  | [], s, s' => s' = s
  | c :: letters, s, s' => ∃ groups, Groups s.places (t.hits splitter c) groups ∧
      t.Passes splitter letters (groups.foldl Ledger.split s) s'

/-- **One round**: the block on top of the stack is taken and worked off over all letters. -/
def Round (t : Table) (s s' : Ledger) : Prop :=
  ∃ b rest, s.waiting = b :: rest ∧
    t.Passes (s.blocks.getD b []) (List.range t.letters) (s.take b rest) s'

/-- What a number of rounds may lead to. -/
inductive Rounds (t : Table) : Nat → Ledger → Prop where
  | start : t.Rounds 0 (Ledger.start t)
  | next {m : Nat} {s s' : Ledger} (before : t.Rounds m s) (round : t.Round s s') :
      t.Rounds (m + 1) s'

/-- The classes that a ledger shows, numbered in the order of their first states. -/
def Ledger.classes (s : Ledger) : List Nat :=
  numberFrom (List.replicate s.blocks.length none) 0 s.places

/-! ### The first ledger -/

/-- What a ledger holds after the given blocks have been added to an empty one. -/
structure Ledger.Opened (s : Ledger) (size : Nat) (bs : List (List Nat)) : Prop where
  blocks : s.blocks = bs
  marks : s.marks = List.replicate bs.length true
  waiting : s.waiting = (List.range bs.length).reverse
  length : s.places.length = size
  places : ∀ b i, i < size → i ∈ bs.getD b [] → s.places[i]? = some b

theorem Ledger.Opened.add {s : Ledger} {size : Nat} {bs : List (List Nat)} (hs : s.Opened size bs)
    {B : List Nat} (hne : B ≠ []) (hapart : ∀ C ∈ bs, ∀ i ∈ C, i ∉ B) :
    (s.add B).Opened size (bs ++ [B]) := by
  have hadd : s.add B = ⟨bs ++ [B], B.foldl (fun places i => places.set i bs.length) s.places,
      s.marks ++ [true], bs.length :: s.waiting⟩ := by
    rw [Ledger.add, if_neg (by simpa using hne), hs.blocks]
  rw [hadd]
  refine ⟨rfl, ?_, ?_, length_foldl_set.trans hs.length, ?_⟩
  · simp [hs.marks, List.replicate_succ']
  · simp [hs.waiting, List.range_succ]
  · intro b i hi hmem
    show (B.foldl (fun places i => places.set i bs.length) s.places)[i]? = some b
    rw [getElem?_foldl_set]
    rcases Nat.lt_trichotomy b bs.length with hb | hb | hb
    · rw [List.getD_append _ _ _ _ hb] at hmem
      have hold := hs.places b i hi hmem
      rw [List.getD_eq_getElem _ _ hb] at hmem
      rw [if_neg (hapart _ (List.getElem_mem hb) i hmem), hold]
    · subst hb
      have hlt : i < s.places.length := hs.length ▸ hi
      have hmem : i ∈ B := by simpa using hmem
      rw [if_pos hmem, List.getElem?_eq_getElem hlt, Option.map_some]
    · rw [List.getD_eq_default] at hmem
      · cases hmem
      · simpa using Nat.succ_le_of_lt hb

theorem opened_foldl_add {size : Nat} {bs : List (List Nat)} (hne : ∀ B ∈ bs, B ≠ [])
    (hnodup : bs.flatten.Nodup) :
    (bs.foldl Ledger.add ⟨[], List.replicate size 0, [], []⟩).Opened size bs := by
  induction bs using List.reverseRecOn with
  | nil => exact ⟨rfl, rfl, rfl, List.length_replicate, fun b i _ hi => absurd hi (by simp)⟩
  | append_singleton bs B ih =>
    rw [List.flatten_append, List.nodup_append] at hnodup
    obtain ⟨hbs, -, hapart⟩ := hnodup
    rw [List.foldl_append]
    apply (ih (fun C hC => hne C (List.mem_append_left _ hC)) hbs).add
    · exact hne B (by simp)
    · intro C hC i hi hB
      exact hapart i (List.mem_flatten.2 ⟨C, hC, hi⟩) i (by simpa using hB) rfl

/-- Empty blocks are not added. -/
theorem foldl_add_filter (bs : List (List Nat)) (s : Ledger) :
    (bs.filter (!·.isEmpty)).foldl Ledger.add s = bs.foldl Ledger.add s := by
  rw [List.foldl_filter]
  apply List.foldl_ext
  intro s B _
  cases B <;> rfl

theorem start_ledger (t : Table) : Ledger.start t = t.start.ledger t.size := by
  have hvalid := (sound_start t).valid
  have hopened : (Ledger.start t).Opened t.size t.start.blocks := by
    have hblocks : (t.start.blocks.foldl Ledger.add ⟨[], List.replicate t.size 0, [], []⟩).Opened
        t.size t.start.blocks :=
      opened_foldl_add hvalid.nonempty (hvalid.covers.nodup_iff.2 List.nodup_range)
    simp only [Table.start, foldl_add_filter] at hblocks ⊢
    exact hblocks
  have hplaces : (Ledger.start t).places = (List.range t.size).map t.start.blockOf := by
    apply List.ext_getElem?
    intro i
    rw [List.getElem?_map]
    by_cases hi : i < t.size
    · rw [List.getElem?_range hi, hopened.places _ i hi (hvalid.mem_block_blockOf hi),
        Option.map_some]
    · rw [List.getElem?_eq_none (by rw [hopened.length]; exact Nat.le_of_not_lt hi),
        List.getElem?_eq_none (by simpa using hi), Option.map_none]
  apply Ledger.ext
  · exact hopened.blocks
  · exact hplaces
  · rw [hopened.marks]
    symm
    rw [ledger, List.eq_replicate_iff]
    simp [Table.start]
  · rw [hopened.waiting]
    rfl

/-! ### The ledger of a run -/

variable {t : Table} {p : Partition}

theorem take_ledger {size b : Nat} {rest : List Nat} (hp : p.Valid size)
    (hwaiting : p.waiting = b :: rest) :
    (p.ledger size).take b rest = ({ p with waiting := rest } : Partition).ledger size := by
  have hnodup := hp.waiting_nodup
  rw [hwaiting] at hnodup
  have hmarks : ((List.range p.blocks.length).map (b :: rest).contains).set b false =
      (List.range p.blocks.length).map rest.contains := marks_erase (List.nodup_cons.1 hnodup).1
  rw [← hwaiting] at hmarks
  show Ledger.mk _ _ _ _ = Ledger.mk _ _ _ _
  rw [← hmarks]
  rfl

theorem classes_ledger {size : Nat} (hp : p.Valid size) :
    (p.ledger size).classes = p.numbers size := by
  apply numberFrom_eq
  intro b hb
  obtain ⟨i, hi, rfl⟩ := List.mem_map.1 hb
  exact lt_length_of_mem_block (hp.mem_block_blockOf (List.mem_range.1 hi))

theorem getD_places_ledger {size x : Nat} (hx : x < size) :
    (p.ledger size).places.getD x 0 = p.blockOf x := by
  simp [ledger, hx]

/-! ### One letter -/

section Letter

variable {splitter : List Nat} {c : Nat} {groups : List (Nat × List Nat)}

/-- A list of blocks in some order is what an order makes of it. -/
theorem exists_fair {bs cs : List Nat} (h : cs.Perm bs) : ∃ order, Fair order ∧ order bs = cs := by
  refine ⟨fun ds => if ds = bs then cs else ds, ?_, if_pos rfl⟩
  intro ds
  dsimp only
  split
  · next hds =>
    rw [hds]
    exact h
  · exact List.Perm.refl ds

variable (hp : p.Valid t.size) (hsplitter : ∀ j ∈ splitter, j < t.size) (hc : c < t.letters)
  (hgroups : Groups (p.ledger t.size).places (t.hits splitter c) groups)

include hp hsplitter hc hgroups

theorem Groups.hitsIn {g : Nat × List Nat} (hg : g ∈ groups) :
    p.HitsIn (t.entering splitter c) g.1 g.2 := by
  refine ⟨hgroups.nodup g hg, ?_, ?_⟩
  · obtain ⟨i, hi, hplace⟩ := (hgroups.affected g.1).1 (List.mem_map_of_mem hg)
    exact List.ne_nil_of_mem ((hgroups.mem_iff g hg i).2 ⟨hi, hplace⟩)
  · intro x
    rw [hgroups.mem_iff g hg, mem_hits hsplitter hc, and_comm]
    refine and_congr_left fun hx => ?_
    have hlt := (mem_entering.1 hx).1
    rw [getD_places_ledger hlt]
    constructor
    · intro hblock
      rw [← hblock]
      exact hp.mem_block_blockOf hlt
    · exact hp.blockOf_eq

omit hp in
theorem Groups.perm :
    (groups.map (·.1)).Perm (fresh [] ((t.entering splitter c).map p.blockOf)) := by
  rw [List.perm_ext_iff_of_nodup hgroups.distinct (fresh_nodup _ _)]
  intro b
  rw [hgroups.affected, mem_fresh, and_iff_left List.not_mem_nil, List.mem_map]
  refine exists_congr fun i => ?_
  rw [mem_hits hsplitter hc]
  exact and_congr_right fun hi => by rw [getD_places_ledger (mem_entering.1 hi).1]

/-- **The groups of a letter are split off as `splitOver` does**, in an order that takes each
    affected block once. -/
theorem Groups.exists_order : ∃ order, Fair order ∧ groups.foldl Ledger.split (p.ledger t.size) =
    (t.splitOver order splitter p c).ledger t.size := by
  obtain ⟨order, hfair, horder⟩ := exists_fair (hgroups.perm hsplitter hc)
  refine ⟨order, hfair, ?_⟩
  rw [splitOver_eq, horder]
  exact foldl_split_ledger hp hgroups.distinct fun g hg => hgroups.hitsIn hp hsplitter hc hg

end Letter

/-! ### One round -/

theorem pass_cons (t : Table) (order : Nat → List Nat → List Nat) (splitter : List Nat) (c : Nat)
    (letters : List Nat) (p : Partition) : t.pass order splitter (c :: letters) p =
      t.pass order splitter letters (t.splitOver (order c) splitter p c) := rfl

theorem pass_congr {order order' : Nat → List Nat → List Nat} {splitter letters : List Nat}
    (h : ∀ c ∈ letters, order c = order' c) :
    t.pass order splitter letters p = t.pass order' splitter letters p :=
  List.foldl_ext _ _ _ fun q c hc => by rw [h c hc]

theorem exists_passes (t : Table) (splitter letters : List Nat) (s : Ledger) :
    ∃ s', t.Passes splitter letters s s' := by
  induction letters generalizing s with
  | nil => exact ⟨s, rfl⟩
  | cons c letters ih =>
    have hgroups := groups_group s.places (t.hits splitter c)
    obtain ⟨s', hs'⟩ := ih ((group s.places (t.hits splitter c)).foldl Ledger.split s)
    exact ⟨s', _, hgroups, hs'⟩

/-- **Working off a splitter keeps the ledger in order**, whatever is chosen. -/
theorem Passes.exists_order {splitter letters : List Nat} (hsplitter : ∀ j ∈ splitter, j < t.size)
    (hletters : ∀ c ∈ letters, c < t.letters) (hnodup : letters.Nodup) (hp : p.Valid t.size)
    {s : Ledger} (h : t.Passes splitter letters (p.ledger t.size) s) :
    ∃ order : Nat → List Nat → List Nat, (∀ c, Fair (order c)) ∧
      s = (t.pass order splitter letters p).ledger t.size := by
  induction letters generalizing p with
  | nil => exact ⟨fun _ bs => bs, fun _ bs => List.Perm.refl bs, h⟩
  | cons c letters ih =>
    obtain ⟨hc, hnodup⟩ := List.nodup_cons.1 hnodup
    obtain ⟨groups, hgroups, h⟩ := h
    obtain ⟨order, hfair, horder⟩ :=
      hgroups.exists_order hp hsplitter (hletters c (List.mem_cons_self ..))
    rw [horder] at h
    have hvalid : (t.splitOver order splitter p c).Valid t.size :=
      (finer_splitOver hp splitter c).valid
    obtain ⟨later, hlater, hs⟩ :=
      ih (fun d hd => hletters d (List.mem_cons_of_mem c hd)) hnodup hvalid h
    -- `c` is none of the later letters
    have hothers : ∀ d ∈ letters, Function.update later c order d = later d := by
      intro d hd
      apply Function.update_of_ne
      rintro rfl
      exact hc hd
    refine ⟨Function.update later c order, ?_, ?_⟩
    · intro d
      by_cases hd : d = c
      · subst hd
        rwa [Function.update_self]
      · rw [Function.update_of_ne hd]
        exact hlater d
    · rw [hs, pass_cons, Function.update_self, pass_congr hothers]

theorem exists_round {s : Ledger} (h : s.waiting ≠ []) : ∃ s', t.Round s s' := by
  obtain ⟨b, rest, hwaiting⟩ := List.exists_cons_of_ne_nil h
  obtain ⟨s', hs'⟩ :=
    t.exists_passes (s.blocks.getD b []) (List.range t.letters) (s.take b rest)
  exact ⟨s', b, rest, hwaiting, hs'⟩

/-- **A round leads from the ledger of a partition to that of another one**, with the invariant. -/
theorem Sound.exists_round (hclosed : t.Closed) (hp : t.Sound p) (hstable : t.Stable p) {s : Ledger}
    (h : t.Round (p.ledger t.size) s) :
    ∃ q, s = q.ledger t.size ∧ t.Sound q ∧ t.Stable q ∧
      q.blocks.length + p.waiting.length = p.blocks.length + (q.waiting.length + 1) := by
  obtain ⟨b, rest, hwaiting, hpasses⟩ := h
  have hwaiting : p.waiting = b :: rest := hwaiting
  have hvalid := hp.valid
  have hblock : (p.ledger t.size).blocks.getD b [] = p.block b := rfl
  rw [take_ledger hvalid hwaiting, hblock] at hpasses
  have hsplitter : ∀ j ∈ p.block b, j < t.size := fun j hj => hvalid.exists_block_iff.1 ⟨b, hj⟩
  obtain ⟨order, hfair, hs⟩ := hpasses.exists_order hsplitter (fun c hc => List.mem_range.1 hc)
    List.nodup_range (hvalid.taken hwaiting)
  obtain ⟨hsound, hstable', hcount⟩ := hp.round hclosed hfair hstable hwaiting rfl
  refine ⟨_, hs, hsound, hstable', ?_⟩
  rw [hwaiting, List.length_cons]
  omega

/-! ### A run -/

/-- **The invariant of a run**: its ledger is that of a partition with the invariant of the
    refinement, and there are as many blocks as wait or have been taken. -/
theorem Rounds.exists_partition (hclosed : t.Closed) {m : Nat} {s : Ledger} (h : t.Rounds m s) :
    ∃ p, s = p.ledger t.size ∧ t.Sound p ∧ t.Stable p ∧
      p.waiting.length + m = p.blocks.length := by
  induction h with
  | start =>
    refine ⟨t.start, start_ledger t, sound_start t, stable_start hclosed, ?_⟩
    simp [Table.start]
  | next _ round ih =>
    obtain ⟨p, rfl, hp, hstable, hcount⟩ := ih
    obtain ⟨q, hq, hsound, hstable', hmore⟩ := hp.exists_round hclosed hstable round
    exact ⟨q, hq, hsound, hstable', by omega⟩

/-- **There are no more rounds than states.** -/
theorem Rounds.le_size (hclosed : t.Closed) {m : Nat} {s : Ledger} (h : t.Rounds m s) :
    m ≤ t.size := by
  obtain ⟨p, -, hp, -, hcount⟩ := h.exists_partition hclosed
  have hle := hp.valid.length_blocks_le
  omega

/-- **Any run comes to its end.** -/
theorem Rounds.exists_end (hclosed : t.Closed) {m : Nat} {s : Ledger} (h : t.Rounds m s) :
    ∃ m' s', t.Rounds m' s' ∧ s'.waiting = [] := by
  by_cases hwaiting : s.waiting = []
  · exact ⟨m, s, h, hwaiting⟩
  · obtain ⟨s', round⟩ := exists_round (t := t) hwaiting
    have hle := (h.next round).le_size hclosed
    exact (h.next round).exists_end hclosed
termination_by t.size - m

/-! ### The classes -/

theorem fair_self : Fair fun bs => bs := fun bs => List.Perm.refl bs

/-- **Once nothing waits, the numbers are the classes**, whatever has been chosen on the way. -/
theorem Sound.numbers_eq_classesBy (hclosed : t.Closed) {order : Nat → Nat → List Nat → List Nat}
    (horder : ∀ f c, Fair (order f c)) (hp : t.Sound p) (hstable : t.Stable p)
    (hwaiting : p.waiting = []) : p.numbers t.size = t.classesBy order := by
  obtain ⟨k, hk⟩ := fresh_numbers p t.size
  obtain ⟨l, hl⟩ := fresh_classesBy t order
  apply eq_of_same_places hk hl
  · rw [length_numbers, length_classesBy]
  · intro i j hi hj
    rw [length_numbers] at hi hj
    rw [hp.numbers_eq_iff hstable hwaiting hi hj, classesBy_eq_iff hclosed horder hi hj]

/-- **The classes do not depend on any order.** -/
theorem classesBy_eq_classes (hclosed : t.Closed) {order : Nat → Nat → List Nat → List Nat}
    (horder : ∀ f c, Fair (order f c)) : t.classesBy order = t.classes := by
  obtain ⟨hp, hstable, hwaiting⟩ := sound_refine_start hclosed horder
  exact hp.numbers_eq_classesBy hclosed (fun _ _ => fair_self) hstable hwaiting

theorem Rounds.classes_eq (hclosed : t.Closed) {m : Nat} {s : Ledger} (h : t.Rounds m s)
    (hwaiting : s.waiting = []) : s.classes = t.classes := by
  obtain ⟨p, rfl, hp, hstable, -⟩ := h.exists_partition hclosed
  rw [classes_ledger hp.valid]
  exact hp.numbers_eq_classesBy hclosed (fun _ _ => fair_self) hstable hwaiting

/-! ### Words that separate states -/

/-- A word separates two states if just one of its readings breaks off, or if both go on to the end
    and just one of them ends at an accepting state. -/
def Separates (t : Table) (w : List Nat) (i j : Nat) : Prop :=
  (t.read i w).isNone ≠ (t.read j w).isNone ∨
    ∃ i' j', t.read i w = some i' ∧ t.read j w = some j' ∧ t.accepting i' ≠ t.accepting j'

theorem separates_iff {w : List Nat} {i j : Nat} :
    t.Separates w i j ↔ t.outcome i w ≠ t.outcome j w := by
  unfold Separates outcome
  cases t.read i w <;> cases t.read j w <;> simp

theorem equivalent_iff_not_separates {i j : Nat} :
    t.Equivalent i j ↔ ¬ ∃ w, (∀ c ∈ w, c < t.letters) ∧ t.Separates w i j := by
  simp only [Equivalent, separates_iff, not_exists, not_and, not_not]

/-- **The classes of a table**: two states have the same class if no word of its letters separates
    them, and classes are numbered from 0 on in the order in which they come up. -/
structure Classified (t : Table) (classes : List Nat) : Prop where
  length : classes.length = t.size
  same_iff : ∀ i j, i < t.size → j < t.size → (classes.getD i 0 = classes.getD j 0 ↔
    ¬ ∃ w, (∀ c ∈ w, c < t.letters) ∧ t.Separates w i j)
  inOrder : ∀ i n b : Nat, classes[i]? = some n → b < n → ∃ j, j < i ∧ classes[j]? = some b
  first : 0 < t.size → classes[0]? = some 0

theorem classified_classes (hclosed : t.Closed) : t.Classified t.classes := by
  obtain ⟨k, hk⟩ : ∃ k, fresh [] t.classes = List.range k := fresh_classesBy t _
  have hlength : t.classes.length = t.size := length_classesBy t _
  refine ⟨hlength, ?_, fun i n b hi hb => exists_lt_of_lt hk hi hb, ?_⟩
  · intro i j hi hj
    rw [← equivalent_iff_not_separates]
    exact classesBy_eq_iff hclosed (fun _ _ => fair_self) hi hj
  · intro hpos
    apply head_eq_zero hk
    apply List.ne_nil_of_length_pos
    rwa [hlength]

/-- **Partition refinement is exact**, on any table whose cells lead to states of the table.  It
    finds the classes of the states, in whatever order the affected blocks are taken.  Taken round
    by round, it ends after one round for each state at most, and only when nothing waits; then the
    ledger shows these classes. -/
theorem refinement_exact {n k : Nat} {cells : List (Option Nat)} {accepting : List Bool}
    (hcells : ∀ j, some j ∈ cells → j < n) (ht : t = ofCells n k cells accepting) :
    t.Classified t.classes ∧
      (∀ order, (∀ f c, Fair (order f c)) → t.classesBy order = t.classes) ∧
      (∀ m s, t.Rounds m s → m ≤ n ∧ (s.waiting ≠ [] → ∃ s', t.Round s s') ∧
        (s.waiting = [] → s.classes = t.classes)) ∧
      ∃ m s, t.Rounds m s ∧ s.waiting = [] := by
  subst ht
  have hclosed : (ofCells n k cells accepting).Closed := closed_ofCells hcells
  refine ⟨classified_classes hclosed, fun order => classesBy_eq_classes hclosed, ?_, ?_⟩
  · intro m s hrounds
    exact ⟨hrounds.le_size hclosed, exists_round, hrounds.classes_eq hclosed⟩
  · exact Rounds.exists_end hclosed .start

/-- Two states that lead to each other are told apart by their flags only. -/
example : (ofCells 2 1 [some 1, some 0] [true, true]).classes = [0, 0] ∧
    (ofCells 2 1 [some 1, some 0] [true, false]).classes = [0, 1] := by decide

def patchyCells : List (Option Nat) :=
  [some 1, none, some 0, some 2, some 2, none, some 2, none, some 0, some 3]

/-- Five states and two letters, with three cells that lead nowhere. -/
def patchy : Table := ofCells 5 2 patchyCells [false, false, true, true, false]

theorem refinement_exact_patchy :
    (∀ j, some j ∈ patchyCells → j < 5) ∧ patchy.classes = [0, 1, 2, 2, 1] ∧
      patchy.Separates [1] 0 1 ∧ (¬ ∃ w, (∀ c ∈ w, c < 2) ∧ patchy.Separates w 1 4) ∧
      patchy.classesBy (fun _ _ bs => bs.reverse) = [0, 1, 2, 2, 1] ∧
      ∃ m s, m ≤ 5 ∧ patchy.Rounds m s ∧ s.waiting = [] ∧ s.classes = [0, 1, 2, 2, 1] := by
  have hcells : ∀ j, some j ∈ patchyCells → j < 5 := by
    intro j hj
    simp only [patchyCells, List.mem_cons, Option.some.injEq, reduceCtorEq, List.not_mem_nil,
      false_or, or_false] at hj
    omega
  have hpatchy : patchy = ofCells 5 2 patchyCells [false, false, true, true, false] := rfl
  obtain ⟨hclassified, horder, hrounds, m, s, hrun, hend⟩ := refinement_exact hcells hpatchy
  have hclasses : patchy.classes = [0, 1, 2, 2, 1] := by decide
  have hreverse : ∀ f c : Nat, Fair fun bs => bs.reverse := fun _ _ bs => List.reverse_perm bs
  obtain ⟨hle, -, hshow⟩ := hrounds m s hrun
  refine ⟨hcells, hclasses, Or.inl (by decide), ?_, ?_, m, s, hle, hrun, hend, ?_⟩
  · apply (hclassified.same_iff 1 4 (by decide) (by decide)).1
    rw [hclasses]
    rfl
  · exact (horder _ hreverse).trans hclasses
  · exact (hshow hend).trans hclasses

end Table

end SymbolAutomata
