import CanonicalLR.Proofs.Automaton.Trail
import CanonicalLR.Proofs.Grammar.Fixpoint
import CanonicalLR.Proofs.Indexed.Item
import Mathlib.Order.Bounds.Defs

namespace CanonicalLR

/-! Closing items is a closure operator.  The closed sets of items are described by what
stands behind the dots; the closure of a kernel is the least of them around it, and the list
in which it is given grows from the kernel and does not grow again. -/

namespace Item

/-- Where an item expects a nonterminal, each rule of it is there with the dot in front, and
with what can come after the nonterminal. -/
def Closed (g : Grammar) (items : Set Item) : Prop :=
  ∀ item ∈ items, ∀ n rest, (item.rhs g).drop item.dot = .nonterminal n :: rest →
    ∀ id < g.rules.length, (g.rule id).lhs = n →
      start id (g.upcoming rest item.lookahead) ∈ items

theorem closed_iff {g : Grammar} {items : Set Item} :
    Closed g items ↔ ∀ item ∈ items, ∀ new ∈ item.expansions g, new ∈ items := by
  constructor
  · intro h item hitem new hnew
    obtain ⟨n, hnext, id, hid, rfl⟩ := mem_expansions.mp hnew
    obtain ⟨hlt, hlhs⟩ := Grammar.mem_rulesOf.mp hid
    rw [expansionLookahead_eq]
    exact h item hitem n _ (drop_dot hnext) id hlt hlhs
  · intro h item hitem n rest hdrop id hid hlhs
    obtain ⟨hnext, hrest⟩ := next?_of_drop item hdrop
    apply h item hitem
    apply mem_expansions.mpr
    refine ⟨n, hnext, id, Grammar.mem_rulesOf.mpr ⟨hid, hlhs⟩, ?_⟩
    rw [expansionLookahead_eq, hrest]

end Item

variable {g : Grammar} {kernel : List Item}

theorem closure_closed (hg : g.WellFormed) (kernel : List Item) :
    Item.Closed g {item | item ∈ closure g kernel} :=
  Item.closed_iff.mpr fun _ hitem _ hnew => closure_expanded hg hitem hnew

theorem closure_subset_of_closed {items : Set Item} (hitems : Item.Closed g items)
    (hkernel : ∀ item ∈ kernel, item ∈ items) : ∀ item ∈ closure g kernel, item ∈ items :=
  closure_induction hkernel fun item new hitem hnew =>
    Item.closed_iff.mp hitems item hitem new hnew

theorem closure_least (hg : g.WellFormed) (kernel : List Item) :
    IsLeast {items : Set Item | (∀ item ∈ kernel, item ∈ items) ∧ Item.Closed g items}
      {item | item ∈ closure g kernel} := by
  constructor
  · exact ⟨fun _ hitem => mem_closure_of_mem_kernel hitem, closure_closed hg kernel⟩
  · rintro items ⟨hkernel, hitems⟩
    exact closure_subset_of_closed hitems hkernel

theorem eraseDups_prefix_closure (g : Grammar) (kernel : List Item) :
    kernel.eraseDups <+: closure g kernel := by
  have hprefix : [] ++ kernel.eraseDups <+: closure g kernel := Closure.prefix_run
  exact hprefix

/-- Items that are closed and without repetition stay as they are. -/
theorem closure_of_expanded (hnodup : kernel.Nodup)
    (hexpanded : ∀ item ∈ kernel, ∀ new ∈ item.expansions g, new ∈ kernel) :
    closure g kernel = kernel := by
  rw [closure, eraseDups_of_nodup hnodup]
  exact Closure.run_of_expanded hexpanded

theorem closure_closure (hg : g.WellFormed) (kernel : List Item) :
    closure g (closure g kernel) = closure g kernel :=
  closure_of_expanded (closure_nodup hg kernel) fun _ hitem _ hnew =>
    closure_expanded hg hitem hnew

theorem closed_union {items others : Set Item} (hitems : Item.Closed g items)
    (hothers : Item.Closed g others) : Item.Closed g (items ∪ others) := by
  rintro item (hitem | hitem) n rest hdrop id hid hlhs
  · exact .inl (hitems item hitem n rest hdrop id hid hlhs)
  · exact .inr (hothers item hitem n rest hdrop id hid hlhs)

theorem mem_closure_append (hg : g.WellFormed) {others : List Item} {item : Item} :
    item ∈ closure g (kernel ++ others) ↔ item ∈ closure g kernel ∨ item ∈ closure g others := by
  constructor
  · apply closure_subset_of_closed (closed_union (closure_closed hg kernel)
      (closure_closed hg others))
    intro new hnew
    rcases List.mem_append.mp hnew with hkernel | hother
    · exact .inl (mem_closure_of_mem_kernel hkernel)
    · exact .inr (mem_closure_of_mem_kernel hother)
  · rintro (hitem | hitem)
    · exact closure_subset hg (List.subset_append_left kernel others) hitem
    · exact closure_subset hg (List.subset_append_right kernel others) hitem

theorem mem_closure_congr (hg : g.WellFormed) {others : List Item}
    (h : ∀ item, item ∈ kernel ↔ item ∈ others) {item : Item} :
    item ∈ closure g kernel ↔ item ∈ closure g others :=
  ⟨fun hitem => closure_subset hg (fun new hnew => (h new).mp hnew) hitem,
    fun hitem => closure_subset hg (fun new hnew => (h new).mpr hnew) hitem⟩

/-- The loop over the growing vector ends, and a budget beyond the bound changes nothing. -/
theorem Closure.runFrom?_eq_closure (hg : g.WellFormed)
    (hkernel : ∀ item ∈ kernel, item.rule < g.rules.length) {budget : Nat}
    (hbudget : bound g kernel ≤ budget) :
    runFrom? g.catalog budget 0 kernel.eraseDups = some (closure g kernel) := by
  have hrules : ∀ item ∈ kernel.eraseDups, item.rule < g.rules.length :=
    fun item hitem => hkernel item (List.mem_eraseDups.mp hitem)
  have henough : ∀ {budget : Nat}, bound g kernel ≤ budget →
      (candidates g kernel).length ≤ ([] : List Item).length + budget := by
    intro budget hbudget
    rw [length_candidates]
    exact Nat.le_add_left_of_le hbudget
  have hstart := start_sound g kernel
  have hrun := runFrom?_eq hg hstart hrules (henough hbudget)
  rwa [hstart.run_eq hg (henough hbudget) (henough (Nat.le_refl _))] at hrun

/-- What closing a kernel comes to. -/
structure Closure.Closes (g : Grammar) (kernel result : List Item) : Prop where
  /-- The loop ends, and a larger budget does not change what it ends with. -/
  ends : ∀ budget, bound g kernel ≤ budget →
    runFrom? g.catalog budget 0 kernel.eraseDups = some result
  nodup : result.Nodup
  begins : kernel.eraseDups <+: result
  least : IsLeast {items : Set Item | (∀ item ∈ kernel, item ∈ items) ∧ Item.Closed g items}
    {item | item ∈ result}
  again : closure g result = result

theorem closure_operator {alphabet productions : List String}
    (hbuild : Grammar.build alphabet productions = .ok g)
    (hkernel : ∀ item ∈ kernel, item.rule < g.rules.length) :
    Closure.Closes g kernel (closure g kernel) ∧
    (∀ others item, item ∈ closure g (kernel ++ others) ↔
      item ∈ closure g kernel ∨ item ∈ closure g others) ∧
    ∀ others, (∀ item, item ∈ kernel ↔ item ∈ others) →
      ∀ item, item ∈ closure g kernel ↔ item ∈ closure g others := by
  have hg := Grammar.build_wellFormed hbuild
  refine ⟨?_, fun others item => mem_closure_append hg, fun others h item =>
    mem_closure_congr hg h⟩
  exact {
    ends := fun budget hbudget => Closure.runFrom?_eq_closure hg hkernel hbudget
    nodup := closure_nodup hg kernel
    begins := eraseDups_prefix_closure g kernel
    least := closure_least hg kernel
    again := closure_closure hg kernel }

/-- The start rule, twice, and between them an item with its dot far beyond the end. -/
def Closure.scattered : List Item :=
  [.start 0 (.singleton .endMarker), ⟨4, 9, .empty⟩, .start 0 (.singleton .endMarker)]

/-- `A` is expanded in front of the end and in front of `b`, and both items stay. -/
theorem closure_operator_scattered :
    [.start 0 (.singleton .endMarker), ⟨4, 9, .empty⟩] <+:
      closure .revolving Closure.scattered ∧
    .start 1 (.singleton .endMarker) ∈ closure .revolving Closure.scattered ∧
    .start 1 (.singleton (.token 1)) ∈ closure .revolving Closure.scattered ∧
    closure .revolving (closure .revolving Closure.scattered) =
      closure .revolving Closure.scattered := by
  have hrules : ∀ item ∈ Closure.scattered, item.rule < Grammar.revolving.rules.length := by
    decide
  obtain ⟨hcloses, _⟩ := closure_operator Grammar.build_revolving hrules
  obtain ⟨⟨hkernel, hclosed⟩, _⟩ := hcloses.least
  have hstart := hkernel _ List.mem_cons_self
  have hend := hclosed _ hstart 1 [] rfl 1 (by decide) rfl
  have htoken := hclosed _ hend 1 [.terminal (.token 1)] rfl 1 (by decide) rfl
  exact ⟨hcloses.begins, hend, htoken, hcloses.again⟩

end CanonicalLR
