import CanonicalLR.Automaton.Numbering
import CanonicalLR.Proofs.Automaton.Discovery

namespace CanonicalLR

/-! The walk lists every state that can be reached from state 0, each one once
and state 0 first.  Its budget is the number of states, and it visits every
state at most once. -/

namespace Numbering

theorem mem_targets {followed : List Transition} {source target : Nat} :
    target ∈ targets followed source ↔
      ∃ transition ∈ followed, transition.source = source ∧ transition.target = target := by
  simp only [targets, List.mem_map, List.mem_filter, decide_eq_true_eq, and_assoc]

/-- What holds between two visits of a walk over states below `count`. -/
structure Sound (followed : List Transition) (count : Nat) (listed pending : List Nat) :
    Prop where
  nodup : listed.Nodup
  head_eq : listed.head? = some 0
  listed_lt : ∀ state ∈ listed, state < count
  pending_subset : ∀ state ∈ pending, state ∈ listed
  visited : ∀ state ∈ listed,
    state ∈ pending ∨ ∀ target ∈ targets followed state, target ∈ listed

variable {followed : List Transition} {count : Nat} {listed pending : List Nat}

theorem Sound.length_listed_le (h : Sound followed count listed pending) :
    listed.length ≤ count := by
  rw [← List.length_range (n := count)]
  exact h.nodup.length_le_of_subset fun state hstate =>
    List.mem_range.mpr (h.listed_lt state hstate)

/-- A visit takes one state off the pending ones, and adds the same states to both lists. -/
theorem length_visit {source visits : Nat}
    (h : listed.length = (source :: pending).length + visits) (fresh : List Nat) :
    (listed ++ fresh).length = (pending ++ fresh).length + (visits + 1) := by
  simp only [List.length_append, List.length_cons] at h ⊢
  omega

theorem Sound.visit (hfollowed : ∀ transition ∈ followed, transition.target < count)
    {source : Nat} (h : Sound followed count listed (source :: pending))
    {fresh : List Nat}
    (hfresh : fresh = ((targets followed source).filter (!listed.contains ·)).eraseDups) :
    Sound followed count (listed ++ fresh) (pending ++ fresh) := by
  have hmem : ∀ {state}, state ∈ fresh ↔
      state ∈ targets followed source ∧ state ∉ listed := fun {state} => by
    rw [hfresh, List.mem_eraseDups, List.mem_filter]
    simp
  constructor
  case nodup =>
    refine List.nodup_append.mpr ⟨h.nodup, hfresh ▸ eraseDups_nodup _, ?_⟩
    intro old hold new hnew heq
    exact (hmem.mp hnew).2 (heq ▸ hold)
  case head_eq => rw [List.head?_append, h.head_eq, Option.some_or]
  case listed_lt =>
    intro state hstate
    rcases List.mem_append.mp hstate with hold | hnew
    · exact h.listed_lt state hold
    · obtain ⟨transition, htransition, _, rfl⟩ := mem_targets.mp (hmem.mp hnew).1
      exact hfollowed transition htransition
  case pending_subset =>
    intro state hstate
    rcases List.mem_append.mp hstate with hpending | hnew
    · exact List.mem_append_left _ (h.pending_subset state (List.mem_cons_of_mem _ hpending))
    · exact List.mem_append_right _ hnew
  case visited =>
    have htargets : ∀ target ∈ targets followed source, target ∈ listed ++ fresh := by
      intro target htarget
      by_cases hlisted : target ∈ listed
      · exact List.mem_append_left _ hlisted
      · exact List.mem_append_right _ (hmem.mpr ⟨htarget, hlisted⟩)
    intro state hstate
    rcases List.mem_append.mp hstate with hold | hnew
    · rcases h.visited state hold with hpending | hvisited
      · rcases List.mem_cons.mp hpending with rfl | hpending
        · exact .inr htargets
        · exact .inl (List.mem_append_left _ hpending)
      · exact .inr fun target htarget => List.mem_append_left _ (hvisited target htarget)
    · exact .inl (List.mem_append_right _ hnew)

theorem walk_nil (followed : List Transition) (budget : Nat) (listed : List Nat) :
    walk followed budget listed [] = listed := by
  cases budget <;> rfl

theorem Sound.pending_eq_nil (h : Sound followed count listed pending) {visits : Nat}
    (hvisits : listed.length = pending.length + visits) (hcount : count ≤ visits) :
    pending = [] := by
  have hlength := h.length_listed_le
  exact List.length_eq_zero_iff.mp (by omega)

/-- What every visit keeps holds in the end, when all that is listed is visited. -/
theorem Sound.walk (hfollowed : ∀ transition ∈ followed, transition.target < count)
    (property : List Nat → List Nat → Prop)
    (hvisit : ∀ visited source listed, property visited listed → property (visited ++ [source])
      (listed ++ ((targets followed source).filter (!listed.contains ·)).eraseDups))
    {visited order : List Nat} {budget : Nat} (h : Sound followed count listed pending)
    (hlisted : listed = visited ++ pending) (hproperty : property visited listed)
    (hbudget : count ≤ visited.length + budget)
    (horder : Numbering.walk followed budget listed pending = order) :
    Sound followed count order [] ∧ property order order := by
  have hvisits : listed.length = pending.length + visited.length := by
    rw [hlisted, List.length_append, Nat.add_comm]
  induction budget generalizing listed pending visited with
  | zero =>
      obtain rfl := h.pending_eq_nil hvisits hbudget
      obtain rfl : listed = order := horder
      obtain rfl : listed = visited := hlisted.trans (List.append_nil visited)
      exact ⟨h, hproperty⟩
  | succ budget ih =>
      cases pending with
      | nil =>
          obtain rfl : listed = order := horder
          obtain rfl : listed = visited := hlisted.trans (List.append_nil visited)
          exact ⟨h, hproperty⟩
      | cons source pending =>
          have hsplit : ∀ fresh : List Nat,
              listed ++ fresh = visited ++ [source] ++ (pending ++ fresh) := by
            intro fresh
            rw [hlisted]
            simp
          have hcount : (visited ++ [source]).length = visited.length + 1 := by simp
          apply ih (h.visit hfollowed rfl) (hsplit _) (hvisit visited source listed hproperty)
          · omega
          · exact horder
          · rw [length_visit hvisits, hcount]

end Numbering

namespace Discovery

variable {g : Grammar} {d : Discovery} {last : Nat}

theorem Sound.walk_start (h : d.Sound g last []) :
    Numbering.Sound d.followed d.found.length [0] [0] where
  nodup := List.nodup_singleton 0
  head_eq := rfl
  listed_lt state hstate := by
    rw [List.mem_singleton.mp hstate]
    exact h.found_pos
  pending_subset _ hstate := hstate
  visited _ hstate := .inl hstate

theorem Sound.order (h : d.Sound g last []) :
    Numbering.Sound d.followed d.found.length (Numbering.order d) [] :=
  (h.walk_start.walk (fun t ht => (h.leads t ht).target_lt) (fun _ _ => True)
    (fun _ _ _ _ => trivial) (List.nil_append [0]).symm trivial (Nat.le_add_left _ 0) rfl).1

theorem Sound.target_mem_order (h : d.Sound g last []) {transition : Transition}
    (htransition : transition ∈ d.followed)
    (hsource : transition.source ∈ Numbering.order d) :
    transition.target ∈ Numbering.order d := by
  rcases h.order.visited transition.source hsource with hnil | hvisited
  · exact absurd hnil List.not_mem_nil
  · exact hvisited _ (Numbering.mem_targets.mpr ⟨transition, htransition, rfl, rfl⟩)

theorem mem_numberedTransitions {order : List Nat} {transition : Transition} :
    transition ∈ d.numberedTransitions order ↔
      ∃ old ∈ d.followed, old.source ∈ order ∧ transition = Numbering.renumber order old := by
  simp only [numberedTransitions, List.mem_flatMap, List.mem_map, List.mem_filter,
    decide_eq_true_eq]
  constructor
  · rintro ⟨_, hsource, old, ⟨hold, rfl⟩, rfl⟩
    exact ⟨old, hold, hsource, rfl⟩
  · rintro ⟨old, hold, hsource, rfl⟩
    exact ⟨_, hsource, old, ⟨hold, rfl⟩, rfl⟩

end Discovery
end CanonicalLR
