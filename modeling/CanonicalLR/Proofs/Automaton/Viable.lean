import CanonicalLR.Proofs.Automaton.Trail
import CanonicalLR.Proofs.Grammar.Form
import Mathlib.Data.List.Induction
import Mathlib.Data.Set.Basic

namespace CanonicalLR

/-! The items behind a viable prefix.  Items are split into items with one terminal
each, so that sets of lookaheads do not matter; those that the automaton holds behind
a string of symbols are the ones that the contexts of the grammar ask for there. -/

/-- An item that looks ahead to a single terminal. -/
structure PointItem where
  rule : Nat
  dot : Nat
  terminal : Terminal

namespace Grammar

/-- The terminal can come after a context with these symbols behind it. -/
def CanFollow (g : Grammar) (rest : List Symbol) (t : Terminal) : Prop :=
  match rest with
  | [] => t = .endMarker
  | symbol :: _ => g.CanBegin symbol t

theorem mem_followers_iff {g : Grammar} (hg : g.WellFormed) {rest : List Symbol}
    {t : Terminal} : t ∈ g.followers rest ↔ g.CanFollow rest t := by
  cases rest with
  | nil => exact OrderedSet.mem_singleton
  | cons symbol rest => exact (mem_firstOfSymbol_iff hg).trans (canBegin_iff hg).symm

/-- Items whose rule can stand in a context such that the context and what is in front
of the dot are the given symbols. -/
def validItems (g : Grammar) (symbols : List Symbol) : Set PointItem :=
  fun item => item.rule < g.rules.length ∧ item.dot ≤ (g.rule item.rule).rhs.length ∧
    ∃ before rest, g.Context before (g.rule item.rule).lhs rest ∧
      symbols = before ++ (g.rule item.rule).rhs.take item.dot ∧
      g.CanFollow rest item.terminal

end Grammar

namespace Automaton

/-- The state that a string of symbols leads to. -/
def reach? (a : Automaton) (symbols : List Symbol) : Option Nat :=
  symbols.foldlM a.goto? 0

/-- Items that the state behind a string of symbols holds; none if there is no such
state. -/
def itemsBehind (a : Automaton) (symbols : List Symbol) : Set PointItem :=
  fun item => ∃ state found lookahead, a.reach? symbols = some state ∧
    a.state? state = some found ∧ ⟨item.rule, item.dot, lookahead⟩ ∈ found.items ∧
    item.terminal ∈ lookahead

variable {a : Automaton}

theorem reach?_concat (a : Automaton) (symbols : List Symbol) (symbol : Symbol) :
    a.reach? (symbols ++ [symbol]) = (a.reach? symbols).bind (a.goto? · symbol) := by
  simp [reach?]

/-- A string of symbols leads to a state if a trail spells it. -/
theorem reach?_eq_some_iff (ha : a.Canonical) {symbols : List Symbol} {state : Nat} :
    a.reach? symbols = some state ↔
      ∃ trail : Trail, a.Traces trail ∧ trail.spelling = symbols ∧ trail.top = state := by
  constructor
  · intro h
    induction symbols using List.reverseRecOn generalizing state with
    | nil =>
        cases h
        exact ⟨[], .nil, rfl, rfl⟩
    | append_singleton symbols symbol ih =>
        rw [reach?_concat] at h
        obtain ⟨middle, hmiddle, hgoto⟩ := Option.bind_eq_some_iff.mp h
        obtain ⟨trail, htrail, rfl, rfl⟩ := ih hmiddle
        exact ⟨(symbol, state) :: trail, .cons htrail (ha.goto?_eq_some_iff.mp hgoto),
          Trail.spelling_cons .., rfl⟩
  · rintro ⟨trail, htrail, rfl, rfl⟩
    induction htrail with
    | nil => rfl
    | cons _ hstep ih =>
        rw [Trail.spelling_cons, reach?_concat, ih]
        exact ha.goto?_eq_some_iff.mpr hstep

theorem exists_state_iff {state : Nat} {item : Item} :
    (∃ found, a.state? state = some found ∧ item ∈ found.items) ↔
      item ∈ a.itemsOf state := by
  unfold itemsOf state?
  cases a.states[state]? with
  | none => simp
  | some found => simp

/-! From an item the automaton leads on over all that is behind its dot, and from the
start symbol into every context. -/

theorem Traces.exists_advance (ha : a.Canonical) {trail : Trail} (h : a.Traces trail)
    {id dot : Nat} {lookahead : TerminalSet} (hitem : ⟨id, dot, lookahead⟩ ∈ a.itemsOf trail.top)
    {symbols rest : List Symbol} (hdrop : (a.grammar.rule id).rhs.drop dot = symbols ++ rest) :
    ∃ after : Trail, a.Traces after ∧ after.spelling = trail.spelling ++ symbols ∧
      ⟨id, dot + symbols.length, lookahead⟩ ∈ a.itemsOf after.top := by
  induction symbols generalizing trail dot with
  | nil => exact ⟨trail, h, (List.append_nil _).symm, hitem⟩
  | cons symbol symbols ih =>
      obtain ⟨hnext, hrest⟩ := Item.next?_of_drop ⟨id, dot, lookahead⟩ hdrop
      obtain ⟨state, hstep⟩ := ha.exists_transition hitem hnext
      obtain ⟨after, hafter, hspelling, hlast⟩ :=
        ih (.cons h hstep) (ha.advance_mem hstep hitem hnext) hrest
      refine ⟨after, hafter, ?_, ?_⟩
      · rw [hspelling, Trail.spelling_cons, List.append_assoc]
        rfl
      · rw [List.length_cons, Nat.add_comm symbols.length, ← Nat.add_assoc]
        exact hlast

theorem Traces.exists_behind (ha : a.Canonical) {trail : Trail} (h : a.Traces trail)
    {id : Nat} {lookahead : TerminalSet} (hitem : .start id lookahead ∈ a.itemsOf trail.top)
    {symbols rest : List Symbol} (hrhs : (a.grammar.rule id).rhs = symbols ++ rest) :
    ∃ after : Trail, a.Traces after ∧ after.spelling = trail.spelling ++ symbols ∧
      ⟨id, symbols.length, lookahead⟩ ∈ a.itemsOf after.top := by
  have hadvance := h.exists_advance ha hitem hrhs
  rwa [Nat.zero_add] at hadvance

theorem exists_traces_of_context (ha : a.Canonical) {before rest : List Symbol} {n : Nat}
    (h : a.grammar.Context before n rest) :
    ∃ trail : Trail, a.Traces trail ∧ trail.spelling = before ∧
      ∀ id ∈ a.grammar.rulesOf n,
        .start id (a.grammar.followers rest) ∈ a.itemsOf trail.top := by
  induction h with
  | start =>
      refine ⟨[], .nil, rfl, fun id hid => ?_⟩
      rw [(Grammar.mem_rulesOf_start ha.wellFormed).mp hid]
      exact ha.start_mem
  | @expand before rest left right n id m _ hid hrhs ih =>
      obtain ⟨trail, htrail, rfl, hitems⟩ := ih
      obtain ⟨after, hafter, hspelling, hitem⟩ :=
        htrail.exists_behind ha (hitems id hid) hrhs
      refine ⟨after, hafter, hspelling, fun other hother => ?_⟩
      have hdrop : (a.grammar.rule id).rhs.drop left.length = .nonterminal m :: right := by
        rw [hrhs, List.drop_left]
      obtain ⟨hnext, hright⟩ := Item.next?_of_drop
        ⟨id, left.length, a.grammar.followers rest⟩ hdrop
      have hlookahead : Item.expansionLookahead a.grammar
          ⟨id, left.length, a.grammar.followers rest⟩ =
            a.grammar.followers (right ++ rest) := by
        rw [Item.expansionLookahead_eq, hright, Grammar.followers, Grammar.followers,
          Grammar.upcoming_append]
      rw [← hlookahead]
      exact ha.expansion_mem hitem hnext hother

theorem exists_traces_of_valid (ha : a.Canonical) {item : Item} {symbols : List Symbol}
    (hrule : item.rule < a.grammar.rules.length)
    (hdot : item.dot ≤ (item.rhs a.grammar).length) (h : item.Valid a.grammar symbols) :
    ∃ trail : Trail, a.Traces trail ∧ trail.spelling = symbols ∧
      item ∈ a.itemsOf trail.top := by
  obtain ⟨before, rest, hcontext, rfl, hlookahead⟩ := h
  obtain ⟨trail, htrail, rfl, hitems⟩ := exists_traces_of_context ha hcontext
  have hstart := hitems item.rule (Grammar.mem_rulesOf.mpr ⟨hrule, rfl⟩)
  obtain ⟨after, hafter, hspelling, hmem⟩ :=
    htrail.exists_behind ha hstart (List.take_append_drop item.dot (item.rhs a.grammar)).symm
  rw [List.length_take_of_le hdot, ← hlookahead] at hmem
  exact ⟨after, hafter, hspelling, hmem⟩

theorem Traces.top_unique (ha : a.Canonical) {first second : Trail} (hfirst : a.Traces first)
    (hsecond : a.Traces second) (hsame : first.spelling = second.spelling) :
    first.top = second.top := by
  have hreach := (reach?_eq_some_iff ha).mpr ⟨first, hfirst, hsame, rfl⟩
  rw [(reach?_eq_some_iff ha).mpr ⟨second, hsecond, rfl, rfl⟩] at hreach
  exact (Option.some.inj hreach).symm

theorem Traces.mem_iff_valid (ha : a.Canonical) {trail : Trail} (h : a.Traces trail)
    {item : Item} :
    item ∈ a.itemsOf trail.top ↔ item.rule < a.grammar.rules.length ∧
      item.dot ≤ (item.rhs a.grammar).length ∧ item.Valid a.grammar trail.spelling := by
  constructor
  · intro hitem
    have hproper := ha.proper item hitem
    exact ⟨hproper.rule_lt, hproper.dot_le, h.valid ha item hitem⟩
  · intro ⟨hrule, hdot, hvalid⟩
    obtain ⟨other, hother, hspelling, hitem⟩ := exists_traces_of_valid ha hrule hdot hvalid
    rwa [hother.top_unique ha h hspelling] at hitem

/-- Behind a string of symbols the automaton holds the items that are valid there, and
no others. -/
theorem itemsBehind_eq_validItems {alphabet productions : List String} {g : Grammar}
    (hbuild : Grammar.build alphabet productions = .ok g) (e : Exploration)
    (symbols : List Symbol) : (build g e).itemsBehind symbols = g.validItems symbols := by
  have hg := Grammar.build_wellFormed hbuild
  have ha := build_canonical hg e
  ext ⟨rule, dot, t⟩
  constructor
  · rintro ⟨state, found, lookahead, hreach, hfound, hitem, ht⟩
    have hmem := exists_state_iff.mp ⟨found, hfound, hitem⟩
    obtain ⟨trail, htrail, rfl, rfl⟩ := (reach?_eq_some_iff ha).mp hreach
    obtain ⟨before, rest, hcontext, hspelling, hlookahead⟩ := htrail.valid ha _ hmem
    have hproper := ha.proper _ hmem
    refine ⟨hproper.rule_lt, hproper.dot_le, before, rest, hcontext, hspelling, ?_⟩
    rw [← Grammar.mem_followers_iff hg]
    exact hlookahead ▸ ht
  · rintro ⟨hrule, hdot, before, rest, hcontext, rfl, ht⟩
    obtain ⟨trail, htrail, rfl, hitems⟩ := exists_traces_of_context ha hcontext
    have hstart := hitems rule (Grammar.mem_rulesOf.mpr ⟨hrule, rfl⟩)
    obtain ⟨after, hafter, hspelling, hmem⟩ :=
      htrail.exists_behind ha hstart (List.take_append_drop dot (g.rule rule).rhs).symm
    rw [List.length_take_of_le hdot] at hmem
    obtain ⟨found, hfound, hitem⟩ := exists_state_iff.mpr hmem
    exact ⟨after.top, found, _, (reach?_eq_some_iff ha).mpr ⟨after, hafter, hspelling, rfl⟩,
      hfound, hitem, (Grammar.mem_followers_iff hg).mpr ht⟩

end Automaton

/-- The start symbol stands inside a rule, `A` and `B` derive each other, and `C` derives
no text. -/
def Grammar.tangled : Grammar :=
  .ofRules ⟨["a", "(", ")"], ["S", "A", "B", "C"]⟩
    [⟨0, [.nonterminal 1], "S->A"⟩,
     ⟨1, [.nonterminal 2], "A->B"⟩,
     ⟨2, [.nonterminal 1], "B->A"⟩,
     ⟨1, [.terminal (.token 0)], "A->a"⟩,
     ⟨2, [.terminal (.token 1), .nonterminal 0, .terminal (.token 2)], "B->(S)"⟩,
     ⟨2, [.terminal (.token 0), .nonterminal 3], "B->aC"⟩,
     ⟨3, [.nonterminal 3], "C->C"⟩]

theorem Grammar.build_tangled :
    build ["a", "(", ")"] ["S->A", "A->B", "B->A", "A->a", "B->(S)", "B->aC", "C->C"] =
      .ok tangled := by
  decide +kernel

/-- Behind `(` an `a` in front of `)` can be an `A`. -/
theorem Automaton.itemsBehind_tangled :
    (build .tangled .depthFirst).itemsBehind [.terminal (.token 1)] =
        Grammar.tangled.validItems [.terminal (.token 1)] ∧
      ⟨3, 0, .token 2⟩ ∈ Grammar.tangled.validItems [.terminal (.token 1)] := by
  have hitems := itemsBehind_eq_validItems Grammar.build_tangled .depthFirst
    [.terminal (.token 1)]
  have hreach : (build .tangled .depthFirst).reach? [.terminal (.token 1)] = some 4 := by
    decide +kernel
  have hmem : ⟨3, 0, .singleton (.token 2)⟩ ∈ (build .tangled .depthFirst).itemsOf 4 := by
    decide +kernel
  obtain ⟨found, hfound, hitem⟩ := exists_state_iff.mpr hmem
  rw [← hitems]
  exact ⟨rfl, 4, found, _, hreach, hfound, hitem, OrderedSet.mem_singleton.mpr rfl⟩

end CanonicalLR
