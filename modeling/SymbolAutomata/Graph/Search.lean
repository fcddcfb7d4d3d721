/-
  SymbolAutomata/Graph/Search.lean
  ================================
  **Breadth-first search** over any set of items.

  `explore` takes the items of a queue in turn and appends the successors that
  are neither finished nor waiting. Its answer lists items in the order of their
  discovery; subset construction, product construction and reachability number
  their nodes by it.

  As long as `fuel` is at least the number of items that there are, the search comes
  to its end (`drains_explore`). The answer then holds just the items that successors
  lead to (`mem_explore_iff`), each once (`explore_nodup`).
-/
import SymbolAutomata.Ascending

namespace SymbolAutomata

/-- Visits at most `fuel` items. `done` are the items visited, in order, and `queue` those found
    but not visited. -/
def explore {α : Type} [DecidableEq α] (next : α → List α) : Nat → List α → List α → List α
  | 0, done, queue => done ++ queue
  | _ + 1, done, [] => done
  | fuel + 1, done, x :: queue =>
    explore next fuel (done ++ [x]) (queue ++ fresh (done ++ x :: queue) (next x))

/-- A visit moves an item from the queue to the finished ones and adds to the end. -/
theorem visit_append {α : Type} (done queue more : List α) (x : α) :
    done ++ [x] ++ (queue ++ more) = (done ++ x :: queue) ++ more := by
  simp

theorem mem_explore_of_mem {α : Type} [DecidableEq α] {next : α → List α} {fuel : Nat}
    {done queue : List α} {x : α} (h : x ∈ done ++ queue) : x ∈ explore next fuel done queue := by
  induction fuel generalizing done queue with
  | zero => exact h
  | succ fuel ih =>
    cases queue with
    | nil => simpa [explore] using h
    | cons y queue =>
      apply ih
      rw [visit_append]
      exact List.mem_append_left _ h

theorem explore_nodup {α : Type} [DecidableEq α] {next : α → List α} {fuel : Nat}
    {done queue : List α} (h : (done ++ queue).Nodup) : (explore next fuel done queue).Nodup := by
  induction fuel generalizing done queue with
  | zero => exact h
  | succ fuel ih =>
    cases queue with
    | nil => simpa [explore] using h
    | cons y queue =>
      apply ih
      rw [visit_append]
      exact nodup_append_fresh h _

/-! ### What is found -/

/-- Successors lead from one item to another, in any number of steps. -/
inductive Leads {α : Type} (next : α → List α) : α → α → Prop where
  | refl (x : α) : Leads next x x
  | step {x y z : α} (first : y ∈ next x) (rest : Leads next y z) : Leads next x z

theorem Leads.trans {α : Type} {next : α → List α} {x y z : α} (h : Leads next x y)
    (k : Leads next y z) : Leads next x z := by
  induction h with
  | refl x => exact k
  | step first _ ih => exact .step first (ih k)

theorem leads_of_mem_explore {α : Type} [DecidableEq α] {next : α → List α} {fuel : Nat}
    {done queue : List α} {x : α} (h : x ∈ explore next fuel done queue) :
    ∃ y ∈ done ++ queue, Leads next y x := by
  induction fuel generalizing done queue with
  | zero => exact ⟨x, h, .refl x⟩
  | succ fuel ih =>
    cases queue with
    | nil => exact ⟨x, by simpa [explore] using h, .refl x⟩
    | cons y queue =>
      obtain ⟨z, hz, hzx⟩ := ih h
      simp only [List.mem_append, List.mem_cons, mem_fresh, List.not_mem_nil, or_false] at hz
      rcases hz with (hz | rfl) | hz | ⟨hz, -⟩
      · exact ⟨z, by simp [hz], hzx⟩
      · exact ⟨z, by simp, hzx⟩
      · exact ⟨z, by simp [hz], hzx⟩
      · exact ⟨y, by simp, .step hz hzx⟩

/-! ### The end of a search -/

/-- **The search without a bound**, which ends when its queue has run empty. -/
inductive Drains {α : Type} [DecidableEq α] (next : α → List α) :
    List α → List α → List α → Prop where
  | idle (done : List α) : Drains next done [] done
  | visit {x : α} {done queue found : List α}
      (rest : Drains next (done ++ [x]) (queue ++ fresh (done ++ x :: queue) (next x)) found) :
      Drains next done (x :: queue) found

/-- **The bound is never met**: if all items are among `all` and `fuel` is large enough to visit
    each of them, the search ends with an empty queue. -/
theorem drains_explore {α : Type} [DecidableEq α] {next : α → List α} {all : List α} {fuel : Nat}
    {done queue : List α} (closed : ∀ x ∈ all, ∀ y ∈ next x, y ∈ all)
    (known : ∀ x ∈ done ++ queue, x ∈ all) (distinct : (done ++ queue).Nodup)
    (enough : all.length ≤ done.length + fuel) :
    Drains next done queue (explore next fuel done queue) := by
  induction fuel generalizing done queue with
  | zero =>
    have hle := distinct.length_le_of_subset known
    have hq : queue = [] := by
      apply List.eq_nil_of_length_eq_zero
      rw [List.length_append] at hle
      omega
    subst hq
    rw [explore, List.append_nil]
    exact .idle done
  | succ fuel ih =>
    cases queue with
    | nil => exact .idle done
    | cons z queue =>
      apply Drains.visit
      apply ih
      · intro x hx
        rw [visit_append] at hx
        rcases List.mem_append.1 hx with hx | hx
        · exact known x hx
        · exact closed z (known z (by simp)) x (mem_fresh.1 hx).1
      · rw [visit_append]
        exact nodup_append_fresh distinct _
      · simp only [List.length_append, List.length_singleton]
        omega

/-- **What is found in the end is closed** under successors. -/
theorem Drains.closed {α : Type} [DecidableEq α] {next : α → List α} {done queue found : List α}
    (h : Drains next done queue found)
    (visited : ∀ x ∈ done, ∀ y ∈ next x, y ∈ done ++ queue) :
    ∀ x ∈ found, ∀ y ∈ next x, y ∈ found := by
  induction h with
  | idle done => simpa using visited
  | @visit z done queue _ _ ih =>
    apply ih
    intro x hx y hy
    rw [visit_append]
    rcases List.mem_append.1 hx with hx | hx
    · exact List.mem_append_left _ (visited x hx y hy)
    · obtain rfl := List.mem_singleton.1 hx
      by_cases hold : y ∈ done ++ x :: queue
      · exact List.mem_append_left _ hold
      · exact List.mem_append_right _ (mem_fresh.2 ⟨hy, hold⟩)

/-- **A search finds just what its start leads to.** -/
theorem mem_explore_iff {α : Type} [DecidableEq α] {next : α → List α} {all : List α} {fuel : Nat}
    {queue : List α} {x : α} (closed : ∀ x ∈ all, ∀ y ∈ next x, y ∈ all)
    (known : ∀ x ∈ queue, x ∈ all) (distinct : queue.Nodup) (enough : all.length ≤ fuel) :
    x ∈ explore next fuel [] queue ↔ ∃ y ∈ queue, Leads next y x := by
  constructor
  · intro h
    simpa using leads_of_mem_explore h
  · rintro ⟨y, hy, h⟩
    have hdrains : Drains next [] queue (explore next fuel [] queue) :=
      drains_explore closed (by simpa using known) (by simpa using distinct) (by simpa using enough)
    have hclosed := hdrains.closed (by simp)
    have hstart : y ∈ explore next fuel [] queue := mem_explore_of_mem (by simpa using hy)
    clear hy
    induction h with
    | refl x => exact hstart
    | step first _ ih => exact ih (hclosed _ hstart _ first)

end SymbolAutomata
