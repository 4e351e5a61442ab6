import CanonicalLR.Item.Closure
import CanonicalLR.Proofs.Grammar.WellFormed

namespace CanonicalLR

/-! The closure of a kernel is the least set of items that contains the kernel
and, with every item, the expansions of the nonterminal behind its dot. -/

theorem eraseDups_nodup {α : Type} [BEq α] [LawfulBEq α] :
    ∀ list : List α, list.eraseDups.Nodup
  | [] => .nil
  | a :: list => by
      rw [List.eraseDups_cons]
      refine List.nodup_cons.mpr ⟨fun h => ?_, eraseDups_nodup _⟩
      have := (List.mem_filter.mp (List.mem_eraseDups.mp h)).2
      simp at this
termination_by list => list.length
decreasing_by
  exact Nat.lt_succ_of_le (List.length_filter_le _ _)

theorem eraseDups_of_nodup {α : Type} [BEq α] [LawfulBEq α] {list : List α}
    (h : list.Nodup) : list.eraseDups = list := by
  induction list with
  | nil => rfl
  | cons a list ih =>
      obtain ⟨ha, hlist⟩ := List.nodup_cons.mp h
      have hfilter : list.filter (fun b => !b == a) = list := by
        apply List.filter_eq_self.mpr
        intro b hb
        simpa using fun heq : b = a => ha (heq ▸ hb)
      rw [List.eraseDups_cons, hfilter, ih hlist]

namespace Closure

def lookaheads (g : Grammar) (kernel : List Item) : List TerminalSet :=
  g.symbols.map g.firstOfSymbol ++ kernel.map Item.lookahead

/-- Items that a closure can hold. -/
def candidates (g : Grammar) (kernel : List Item) : List Item :=
  kernel ++ (List.range g.rules.length).flatMap fun rule =>
    (lookaheads g kernel).map (Item.start rule)

variable {g : Grammar} {kernel : List Item}

theorem length_candidates (g : Grammar) (kernel : List Item) :
    (candidates g kernel).length = bound g kernel := by
  simp [candidates, lookaheads, bound, List.length_flatMap, List.map_const']

theorem start_mem_candidates {rule : Nat} {lookahead : TerminalSet}
    (hrule : rule < g.rules.length) (hlookahead : lookahead ∈ lookaheads g kernel) :
    .start rule lookahead ∈ candidates g kernel := by
  refine List.mem_append_right kernel (List.mem_flatMap.mpr ⟨rule, ?_, ?_⟩)
  · exact List.mem_range.mpr hrule
  · exact List.mem_map_of_mem hlookahead

theorem lookahead_mem {item : Item} (h : item ∈ candidates g kernel) :
    item.lookahead ∈ lookaheads g kernel := by
  rcases List.mem_append.mp h with hkernel | hstart
  · exact List.mem_append_right _ (List.mem_map_of_mem hkernel)
  · obtain ⟨rule, _, hitem⟩ := List.mem_flatMap.mp hstart
    obtain ⟨lookahead, hlookahead, rfl⟩ := List.mem_map.mp hitem
    exact hlookahead

theorem rule_lt_of_mem_rhs {item : Item} {symbol : Symbol} (h : symbol ∈ item.rhs g) :
    item.rule < g.rules.length := by
  apply Classical.byContradiction
  intro hnot
  have hrule : g.rule item.rule = default := by
    rw [Grammar.rule, List.getD_eq_getElem?_getD,
      List.getElem?_eq_none (Nat.le_of_not_lt hnot)]
    rfl
  rw [Item.rhs, hrule] at h
  exact absurd h List.not_mem_nil

theorem expansions_mem_candidates (hg : g.WellFormed) {item new : Item}
    (h : item ∈ candidates g kernel) (hnew : new ∈ item.expansions g) :
    new ∈ candidates g kernel := by
  obtain ⟨n, _, rule, hrule, rfl⟩ := Item.mem_expansions.mp hnew
  refine start_mem_candidates (Grammar.mem_rulesOf.mp hrule).1 ?_
  unfold Item.expansionLookahead
  split
  next symbol hafter =>
    have hmem : symbol ∈ item.rhs g := List.mem_of_getElem? hafter
    exact List.mem_append_left _
      (List.mem_map_of_mem (hg.symbol_mem (rule_lt_of_mem_rhs hmem) symbol hmem))
  next => exact lookahead_mem h

theorem expansions_nodup (item : Item) : (item.expansions g).Nodup := by
  unfold Item.expansions
  split
  next n _ =>
    have hrules : (g.rulesOf n).Nodup := List.nodup_range.filter _
    refine List.pairwise_map.mpr (hrules.imp fun hne heq => hne ?_)
    exact congrArg Item.rule heq
  next => exact List.nodup_nil

/-- What holds between two expansions. -/
structure Sound (g : Grammar) (kernel done pending : List Item) : Prop where
  nodup : (done ++ pending).Nodup
  candidate : ∀ item ∈ done ++ pending, item ∈ candidates g kernel
  expanded : ∀ item ∈ done, ∀ new ∈ item.expansions g, new ∈ done ++ pending

theorem start_sound (g : Grammar) (kernel : List Item) :
    Sound g kernel [] kernel.eraseDups where
  nodup := eraseDups_nodup kernel
  candidate _ hitem := List.mem_append_left _ (List.mem_eraseDups.mp hitem)
  expanded _ hitem := absurd hitem List.not_mem_nil

theorem Sound.expand (hg : g.WellFormed) {done pending : List Item} {item : Item}
    (h : Sound g kernel done (item :: pending)) :
    Sound g kernel (done ++ [item]) (pending ++ (item.expansions g).filter
      fun new => !(done ++ item :: pending).contains new) := by
  have hsplit : ∀ fresh : List Item, done ++ [item] ++ (pending ++ fresh) =
      (done ++ item :: pending) ++ fresh := by simp
  constructor
  case nodup =>
    rw [hsplit]
    refine List.nodup_append.mpr
      ⟨h.nodup, (expansions_nodup item).filter _, fun old hold new hnew heq => ?_⟩
    subst heq
    have habsent := (List.mem_filter.mp hnew).2
    rw [List.contains_iff_mem.mpr hold] at habsent
    cases habsent
  case candidate =>
    rw [hsplit]
    intro new hnew
    rcases List.mem_append.mp hnew with hold | hfresh
    · exact h.candidate new hold
    · exact expansions_mem_candidates hg (h.candidate item (by simp))
        (List.mem_filter.mp hfresh).1
  case expanded =>
    rw [hsplit]
    intro old hold new hnew
    rcases List.mem_append.mp hold with hold | hold
    · exact List.mem_append_left _ (h.expanded old hold new hnew)
    · rw [List.mem_singleton.mp hold] at hnew
      by_cases hmem : new ∈ done ++ item :: pending
      · exact List.mem_append_left _ hmem
      · exact List.mem_append_right _
          (List.mem_filter.mpr ⟨hnew, by simpa using hmem⟩)

theorem Sound.pending_eq_nil {done pending : List Item} (h : Sound g kernel done pending)
    (hlength : (candidates g kernel).length ≤ done.length) : pending = [] := by
  have hle := h.nodup.length_le_of_subset fun item hitem => h.candidate item hitem
  rw [List.length_append] at hle
  exact List.length_eq_zero_iff.mp (by omega)

@[simp] theorem run_nil (g : Grammar) (budget : Nat) (done : List Item) :
    run g budget done [] = done := by
  cases budget with
  | zero => exact List.append_nil done
  | succ budget => rfl

/-- The budget suffices, because the items that are done are distinct candidates. -/
theorem Sound.run (hg : g.WellFormed) {budget : Nat} {done pending : List Item}
    (h : Sound g kernel done pending)
    (hbudget : (candidates g kernel).length ≤ done.length + budget) :
    Sound g kernel (run g budget done pending) [] := by
  induction budget generalizing done pending with
  | zero =>
      obtain rfl := h.pending_eq_nil hbudget
      rw [run_nil]
      exact h
  | succ budget ih =>
      cases pending with
      | nil => exact h
      | cons item pending =>
          refine ih (h.expand hg) ?_
          rw [List.length_append, List.length_singleton]
          omega

/-- What is left of a budget that suffices changes nothing. -/
theorem Sound.run_eq (hg : g.WellFormed) {budget more : Nat} {done pending : List Item}
    (h : Sound g kernel done pending)
    (hbudget : (candidates g kernel).length ≤ done.length + budget)
    (hmore : (candidates g kernel).length ≤ done.length + more) :
    Closure.run g budget done pending = Closure.run g more done pending := by
  induction budget generalizing done pending more with
  | zero =>
      obtain rfl := h.pending_eq_nil hbudget
      rw [run_nil, run_nil]
  | succ budget ih =>
      cases pending with
      | nil => rw [run_nil, run_nil]
      | cons item pending =>
          cases more with
          | zero => cases h.pending_eq_nil hmore
          | succ more =>
              apply ih (h.expand hg)
              · rw [List.length_append, List.length_singleton]
                omega
              · rw [List.length_append, List.length_singleton]
                omega

theorem prefix_run {budget : Nat} {done pending : List Item} :
    done ++ pending <+: run g budget done pending := by
  induction budget generalizing done pending with
  | zero => exact List.prefix_rfl
  | succ budget ih =>
      cases pending with
      | nil => simp
      | cons item pending =>
          apply List.IsPrefix.trans _ ih
          refine ⟨(item.expansions g).filter fun new =>
            !(done ++ item :: pending).contains new, ?_⟩
          simp

/-- Where every expansion is there already, nothing is added. -/
theorem run_of_expanded {budget : Nat} {done pending : List Item}
    (h : ∀ item ∈ pending, ∀ new ∈ item.expansions g, new ∈ done ++ pending) :
    run g budget done pending = done ++ pending := by
  induction budget generalizing done pending with
  | zero => rfl
  | succ budget ih =>
      cases pending with
      | nil => simp
      | cons item pending =>
          have hfresh : ((item.expansions g).filter fun new =>
              !(done ++ item :: pending).contains new) = [] := by
            apply List.filter_eq_nil_iff.mpr
            intro new hnew
            rw [List.contains_iff_mem.mpr (h item List.mem_cons_self new hnew)]
            exact Bool.false_ne_true
          have hsplit : done ++ [item] ++ pending = done ++ item :: pending := by simp
          rw [run, hfresh, List.append_nil, ih, hsplit]
          intro other hother
          rw [hsplit]
          exact h other (List.mem_cons_of_mem item hother)

theorem run_induction {property : Item → Prop} {budget : Nat} {done pending : List Item}
    (hstart : ∀ item ∈ done ++ pending, property item)
    (hexpand : ∀ item new, property item → new ∈ item.expansions g → property new) :
    ∀ item ∈ run g budget done pending, property item := by
  induction budget generalizing done pending with
  | zero => exact hstart
  | succ budget ih =>
      cases pending with
      | nil => simpa using hstart
      | cons head pending =>
          refine ih fun item hitem => ?_
          simp only [List.mem_append, List.mem_filter, List.mem_singleton] at hitem
          rcases hitem with (hdone | rfl) | (hpending | ⟨hnew, _⟩)
          · exact hstart item (List.mem_append_left _ hdone)
          · exact hstart item (by simp)
          · exact hstart item (by simp [hpending])
          · exact hexpand head item (hstart head (by simp)) hnew

end Closure

section

variable {g : Grammar} {kernel : List Item}

theorem closure_sound (hg : g.WellFormed) (kernel : List Item) :
    Closure.Sound g kernel (closure g kernel) [] := by
  refine Closure.Sound.run hg (Closure.start_sound g kernel) (Nat.le_of_eq ?_)
  rw [Closure.length_candidates, List.length_nil, Nat.zero_add]

theorem closure_nodup (hg : g.WellFormed) (kernel : List Item) :
    (closure g kernel).Nodup := by
  simpa using (closure_sound hg kernel).nodup

theorem mem_closure_of_mem_kernel {item : Item} (h : item ∈ kernel) :
    item ∈ closure g kernel :=
  Closure.prefix_run.subset (List.mem_eraseDups.mpr h)

theorem closure_expanded (hg : g.WellFormed) {item new : Item}
    (h : item ∈ closure g kernel) (hnew : new ∈ item.expansions g) :
    new ∈ closure g kernel := by
  simpa using (closure_sound hg kernel).expanded item h new hnew

theorem closure_induction {property : Item → Prop}
    (hkernel : ∀ item ∈ kernel, property item)
    (hexpand : ∀ item new, property item → new ∈ item.expansions g → property new) :
    ∀ item ∈ closure g kernel, property item :=
  Closure.run_induction (fun item hitem => hkernel item (List.mem_eraseDups.mp hitem)) hexpand

theorem closure_subset (hg : g.WellFormed) {other : List Item} (h : kernel ⊆ other) :
    closure g kernel ⊆ closure g other := fun item hitem =>
  closure_induction (fun _ hnew => mem_closure_of_mem_kernel (h hnew))
    (fun _ _ hparent hnew => closure_expanded hg hparent hnew) item hitem

/-- Whatever a closure adds to its kernel expands one of its items. -/
theorem closure_origin (hg : g.WellFormed) {item : Item} (h : item ∈ closure g kernel) :
    item ∈ kernel ∨ ∃ parent ∈ closure g kernel, item ∈ parent.expansions g := by
  have horigin : ∀ new ∈ closure g kernel, new ∈ closure g kernel ∧
      (new ∈ kernel ∨ ∃ parent ∈ closure g kernel, new ∈ parent.expansions g) := by
    apply closure_induction
    · intro new hnew
      exact ⟨mem_closure_of_mem_kernel hnew, .inl hnew⟩
    · rintro parent new ⟨hparent, _⟩ hnew
      exact ⟨closure_expanded hg hparent hnew, .inr ⟨parent, hparent, hnew⟩⟩
  exact (horigin item h).2

end
end CanonicalLR
