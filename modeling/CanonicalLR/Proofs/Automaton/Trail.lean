import CanonicalLR.Proofs.Automaton.Canonical
import CanonicalLR.Proofs.Grammar.Context

namespace CanonicalLR

/-! Trails: the symbols and states that a parser meets on its way from state 0
along transitions.  The symbols of a trail are a viable prefix, and every item
of the state that it reaches tells how the last of them are to be read. -/

/-- Symbols with the states behind them, the latest first. -/
abbrev Trail := List (Symbol × Nat)

namespace Trail

def top : Trail → Nat
  | [] => 0
  | (_, state) :: _ => state

/-- The symbols of a trail, the earliest first. -/
def spelling (trail : Trail) : List Symbol :=
  (trail.map Prod.fst).reverse

@[simp] theorem top_nil : top [] = 0 := rfl

@[simp] theorem top_cons (symbol : Symbol) (state : Nat) (trail : Trail) :
    top ((symbol, state) :: trail) = state := rfl

@[simp] theorem spelling_nil : spelling [] = [] := rfl

@[simp] theorem spelling_cons (symbol : Symbol) (state : Nat) (trail : Trail) :
    spelling ((symbol, state) :: trail) = spelling trail ++ [symbol] := by
  simp [spelling]

@[simp] theorem spelling_append (first second : Trail) :
    spelling (first ++ second) = spelling second ++ spelling first := by
  simp [spelling]

@[simp] theorem length_spelling (trail : Trail) : trail.spelling.length = trail.length := by
  simp [spelling]

end Trail

namespace Item

variable {g : Grammar}

theorem eq_start {item : Item} (h : item.dot = 0) :
    item = .start item.rule item.lookahead := by
  rw [start, ← h]

theorem drop_dot {item : Item} {symbol : Symbol} (h : item.next? g = some symbol) :
    (item.rhs g).drop item.dot = symbol :: (item.rhs g).drop (item.dot + 1) := by
  obtain ⟨hlt, hsymbol⟩ := List.getElem?_eq_some_iff.mp h
  rw [List.drop_eq_getElem_cons hlt, hsymbol]

theorem next?_of_drop (item : Item) {symbol : Symbol} {rest : List Symbol}
    (h : (item.rhs g).drop item.dot = symbol :: rest) :
    item.next? g = some symbol ∧ (item.rhs g).drop (item.dot + 1) = rest := by
  constructor
  · rw [next?, ← List.head?_drop, h]
    rfl
  · rw [← List.tail_drop, h]
    rfl

theorem take_advance {item : Item} {symbol : Symbol} (h : item.next? g = some symbol) :
    (item.rhs g).take (item.dot + 1) = (item.rhs g).take item.dot ++ [symbol] := by
  rw [List.take_add_one]
  exact congrArg _ (congrArg Option.toList h)

theorem rhs_eq {item : Item} {symbol : Symbol} (h : item.next? g = some symbol) :
    item.rhs g =
      (item.rhs g).take item.dot ++ symbol :: (item.rhs g).drop (item.dot + 1) := by
  rw [← drop_dot h, List.take_append_drop]

theorem expansionLookahead_eq (g : Grammar) (item : Item) :
    item.expansionLookahead g =
      g.upcoming ((item.rhs g).drop (item.dot + 1)) item.lookahead := by
  unfold expansionLookahead
  cases hafter : item.afterNext? g with
  | none =>
      rw [List.drop_eq_nil_of_le (List.getElem?_eq_none_iff.mp hafter)]
      rfl
  | some symbol =>
      obtain ⟨hlt, hsymbol⟩ := List.getElem?_eq_some_iff.mp hafter
      rw [List.drop_eq_getElem_cons hlt, hsymbol]
      rfl

/-- An item is valid behind some symbols if its rule can stand in a context that
they begin with, the rest of them is what is in front of its dot, and its
lookahead is what comes next. -/
def Valid (g : Grammar) (symbols : List Symbol) (item : Item) : Prop :=
  ∃ before rest, g.Context before (g.rule item.rule).lhs rest ∧
    symbols = before ++ (item.rhs g).take item.dot ∧ item.lookahead = g.followers rest

theorem Valid.advance {symbols : List Symbol} {item : Item} (h : item.Valid g symbols)
    {symbol : Symbol} (hnext : item.next? g = some symbol) :
    item.advance.Valid g (symbols ++ [symbol]) := by
  obtain ⟨before, rest, hcontext, rfl, hlookahead⟩ := h
  refine ⟨before, rest, hcontext, ?_, hlookahead⟩
  rw [rhs_advance, dot_advance, take_advance hnext, List.append_assoc]

theorem Valid.expand {symbols : List Symbol} {item new : Item} (h : item.Valid g symbols)
    (hnew : new ∈ item.expansions g) : new.Valid g symbols := by
  obtain ⟨before, rest, hcontext, rfl, hlookahead⟩ := h
  obtain ⟨n, hnext, rule, hrule, rfl⟩ := mem_expansions.mp hnew
  have hid : item.rule ∈ g.rulesOf (g.rule item.rule).lhs :=
    Grammar.mem_rulesOf.mpr
      ⟨Closure.rule_lt_of_mem_rhs (List.mem_of_getElem? hnext), rfl⟩
  refine ⟨before ++ (item.rhs g).take item.dot, (item.rhs g).drop (item.dot + 1) ++ rest,
    ?_, ?_, ?_⟩
  · rw [start, (Grammar.mem_rulesOf.mp hrule).2]
    exact .expand hcontext hid (rhs_eq hnext)
  · rw [start, List.take_zero, List.append_nil]
  · rw [Grammar.followers, Grammar.upcoming_append, ← Grammar.followers, ← hlookahead,
      ← expansionLookahead_eq]
    rfl

end Item

namespace Automaton

variable {a : Automaton} {trail : Trail}

inductive Traces (a : Automaton) : Trail → Prop
  | nil : a.Traces []
  | cons {trail : Trail} {symbol : Symbol} {state : Nat} (htrail : a.Traces trail)
      (hstep : ⟨trail.top, symbol, state⟩ ∈ a.transitions) :
      a.Traces ((symbol, state) :: trail)

theorem Traces.drop (h : a.Traces trail) (count : Nat) : a.Traces (trail.drop count) := by
  induction h generalizing count with
  | nil =>
      rw [List.drop_nil]
      exact .nil
  | cons htrail hstep ih =>
      cases count with
      | zero => exact .cons htrail hstep
      | succ count => exact ih count

/-- An item with its dot in front begins the automaton or expands another item. -/
theorem Traces.mem_cases (ha : a.Canonical) (h : a.Traces trail) {item : Item}
    (hitem : item ∈ a.itemsOf trail.top) (hdot : item.dot = 0) :
    (trail = [] ∧ item = .start 0 (.singleton .endMarker)) ∨
      ∃ parent ∈ a.itemsOf trail.top, item ∈ parent.expansions a.grammar := by
  cases h with
  | nil =>
      rcases ha.mem_zero_cases hitem with hstart | hparent
      · exact .inl ⟨rfl, hstart⟩
      · exact .inr hparent
  | cons _ hstep =>
      rcases ha.mem_target_cases hstep hitem with ⟨old, _, _, rfl⟩ | hparent
      · exact absurd hdot (Nat.succ_ne_zero old.dot)
      · exact .inr hparent

/-- With each transition back the dot of an item stands one symbol earlier, and the
symbols that were read, with those behind the dot, are the same all the way. -/
theorem Traces.retrace (ha : a.Canonical) (h : a.Traces trail) {item : Item}
    (hitem : item ∈ a.itemsOf trail.top) {count : Nat} (hcount : count ≤ item.dot) :
    count ≤ trail.length ∧
      trail.spelling ++ (item.rhs a.grammar).drop item.dot =
        Trail.spelling (trail.drop count) ++
          (item.rhs a.grammar).drop (item.dot - count) ∧
      ⟨item.rule, item.dot - count, item.lookahead⟩ ∈
        a.itemsOf (Trail.top (trail.drop count)) := by
  induction count generalizing trail item with
  | zero => exact ⟨Nat.zero_le _, rfl, hitem⟩
  | succ count ih =>
      have hdot : item.dot ≠ 0 := Nat.ne_of_gt (Nat.lt_of_lt_of_le count.succ_pos hcount)
      cases h with
      | nil => exact absurd (ha.dot_eq_zero_of_mem_zero hitem) hdot
      | @cons trail symbol state htrail hstep =>
          obtain ⟨old, hold, hnext, rfl⟩ := ha.exists_source_item hstep hitem hdot
          obtain ⟨hlength, hread, hmem⟩ := ih htrail hold (Nat.le_of_succ_le_succ hcount)
          rw [Item.dot_advance, Nat.add_sub_add_right]
          refine ⟨Nat.succ_le_succ hlength, ?_, hmem⟩
          rw [Item.drop_dot hnext] at hread
          rw [Trail.spelling_cons, List.append_assoc]
          exact hread

/-- The symbols in front of the dot of an item are the last ones of the trail,
and before them the item stood with its dot in front. -/
theorem Traces.history (ha : a.Canonical) (h : a.Traces trail) {item : Item}
    (hitem : item ∈ a.itemsOf trail.top) :
    item.dot ≤ trail.length ∧
      trail.spelling =
        Trail.spelling (trail.drop item.dot) ++ (item.rhs a.grammar).take item.dot ∧
      .start item.rule item.lookahead ∈ a.itemsOf (Trail.top (trail.drop item.dot)) := by
  obtain ⟨hlength, hread, hstart⟩ := h.retrace ha hitem (Nat.le_refl item.dot)
  rw [Nat.sub_self] at hread hstart
  refine ⟨hlength, List.append_cancel_right (hread.trans ?_), hstart⟩
  rw [List.drop_zero, List.append_assoc, List.take_append_drop]

theorem Traces.exists_goto (ha : a.Canonical) (h : a.Traces trail) {id : Nat}
    {lookahead : TerminalSet} (hid : id ≠ 0)
    (hitem : .start id lookahead ∈ a.itemsOf trail.top) :
    ∃ target,
      ⟨trail.top, .nonterminal (a.grammar.rule id).lhs, target⟩ ∈ a.transitions := by
  rcases h.mem_cases ha hitem rfl with ⟨_, hstart⟩ | ⟨parent, hparent, hnew⟩
  · exact absurd (congrArg Item.rule hstart) hid
  · obtain ⟨n, hnext, rule, hrule, hstart⟩ := Item.mem_expansions.mp hnew
    obtain rfl : id = rule := congrArg Item.rule hstart
    rw [(Grammar.mem_rulesOf.mp hrule).2]
    exact ha.exists_transition hparent hnext

/-! The items of the state that a trail reaches are valid for its symbols. -/

theorem Traces.valid (ha : a.Canonical) (h : a.Traces trail) :
    ∀ item ∈ a.itemsOf trail.top, item.Valid a.grammar trail.spelling := by
  induction h with
  | nil =>
      refine ha.zero_induction ?_ fun _ _ hitem hnew => hitem.expand hnew
      exact ⟨[], [], .start, rfl, rfl⟩
  | cons htrail hstep ih =>
      refine ha.target_induction hstep (fun item hitem hnext => ?_)
        fun _ _ hitem hnew => hitem.expand hnew
      rw [Trail.spelling_cons]
      exact (ih item hitem).advance hnext

end Automaton
end CanonicalLR
