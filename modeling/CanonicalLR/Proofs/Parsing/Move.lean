import CanonicalLR.Parsing.Run
import CanonicalLR.Proofs.Parsing.Stack
import CanonicalLR.Proofs.Table.Entry

namespace CanonicalLR

/-! The moves of a parser, first by any table and then by the table of an automaton.
There the stack follows the transitions; it has every right-hand side that its top state
asks to be reduced, and a goto below it, so no move finds the table to contradict itself. -/

namespace ParseStack

/-- The stack that a reduction leaves.  Nothing else in a configuration has a part in it. -/
def reduce (t : Table) (rule : Nat) (stack : ParseStack) : Except Rejection ParseStack :=
  match stack.popRhs t.grammar rule with
  | (.error rejection, _) => .error rejection
  | (.ok (), below) =>
      let lhs := (t.grammar.rule rule).lhs
      match t.entry below.top (.nonterminal lhs) with
      | some (.goto target) => .ok (below.push (.nonterminal lhs) target)
      | _ => .error (.missingGoto below.top (t.grammar.nonterminalName lhs))

theorem isInternal_of_popRhs {g : Grammar} {rule : Nat} {stack : ParseStack}
    {rejection : Rejection} (h : (popRhs g rule stack).1 = .error rejection) :
    rejection.isInternal = true := by
  unfold popRhs at h
  dsimp only at h
  split at h
  · cases h
    rfl
  · split at h
    · cases h
      rfl
    · split at h
      · cases h
      · cases h
        rfl

theorem isInternal_of_reduce {t : Table} {rule : Nat} {stack : ParseStack}
    {rejection : Rejection} (h : stack.reduce t rule = .error rejection) :
    rejection.isInternal = true := by
  unfold reduce at h
  split at h
  next hpop =>
    cases h
    exact isInternal_of_popRhs (congrArg Prod.fst hpop)
  next =>
    dsimp only at h
    split at h
    · cases h
    · cases h
      rfl

/-- The stack that a trail leaves behind. -/
def ofTrail : Trail → ParseStack
  | [] => fresh
  | (symbol, state) :: trail => (ofTrail trail).push symbol state

@[simp] theorem ofTrail_nil : ofTrail [] = fresh := rfl

@[simp] theorem ofTrail_cons (symbol : Symbol) (state : Nat) (trail : Trail) :
    ofTrail ((symbol, state) :: trail) = (ofTrail trail).push symbol state := rfl

@[simp] theorem top_ofTrail (trail : Trail) : (ofTrail trail).top = trail.top := by
  cases trail <;> rfl

theorem entries_ofTrail (trail : Trail) :
    ∃ below, (ofTrail trail).entries = .state trail.top :: below := by
  cases trail with
  | nil => exact ⟨[], rfl⟩
  | cons entry trail => exact ⟨.symbol entry.1 :: (ofTrail trail).entries, rfl⟩

theorem length_entries_ofTrail (trail : Trail) :
    (ofTrail trail).entries.length = 2 * trail.length + 1 := by
  induction trail with
  | nil => rfl
  | cons entry trail ih =>
      show ((ofTrail trail).push entry.1 entry.2).entries.length = _
      rw [push, List.length_cons, List.length_cons, ih, List.length_cons]
      omega

theorem ofTrail_eq_under (trail : Trail) : ofTrail trail = fresh.under trail := by
  induction trail with
  | nil => rfl
  | cons entry trail ih => rw [ofTrail_cons, ih, under_cons]

theorem popRhs_ofTrail {g : Grammar} {id : Nat} {trail : Trail}
    (hsuffix : (g.rule id).rhs <:+ trail.spelling) :
    popRhs g id (ofTrail trail) =
      (.ok (), ofTrail (trail.drop (g.rule id).rhs.length)) := by
  obtain ⟨below, hbelow⟩ := entries_ofTrail (trail.drop (g.rule id).rhs.length)
  rw [ofTrail_eq_under] at hbelow ⊢
  rw [ofTrail_eq_under]
  exact popRhs_under_of_state hsuffix hbelow

end ParseStack

namespace Automaton

variable {a : Automaton} {trail : Trail}

/-- Before an item that is at its end, the trail has its right-hand side. -/
theorem Traces.history_atEnd (ha : a.Canonical) (h : a.Traces trail) {item : Item}
    (hitem : item ∈ a.itemsOf trail.top) (hend : item.atEnd a.grammar = true) :
    (item.rhs a.grammar).length ≤ trail.length ∧
      trail.spelling =
        Trail.spelling (trail.drop (item.rhs a.grammar).length) ++ item.rhs a.grammar ∧
      .start item.rule item.lookahead ∈
        a.itemsOf (Trail.top (trail.drop (item.rhs a.grammar).length)) := by
  have hdot : item.dot = (item.rhs a.grammar).length :=
    Nat.le_antisymm (ha.proper item hitem).dot_le (of_decide_eq_true hend)
  have hhistory := h.history ha hitem
  rwa [hdot, List.take_length] at hhistory

theorem Traces.exists_goto_below (ha : a.Canonical) (h : a.Traces trail) {item : Item}
    (hitem : item ∈ a.itemsOf trail.top) (hend : item.atEnd a.grammar = true)
    (hrule : item.rule ≠ 0) :
    ∃ target, ⟨Trail.top (trail.drop (item.rhs a.grammar).length),
      .nonterminal (a.grammar.rule item.rule).lhs, target⟩ ∈ a.transitions := by
  obtain ⟨_, _, hstart⟩ := h.history_atEnd ha hitem hend
  exact (h.drop _).exists_goto ha hrule hstart

end Automaton

namespace Config

structure On (a : Automaton) (c : Config) (trail : Trail) : Prop where
  stack_eq : c.stack = .ofTrail trail
  traces : a.Traces trail

theorem On.top_eq {a : Automaton} {c : Config} {trail : Trail} (h : c.On a trail) :
    c.stack.top = trail.top := by
  rw [h.stack_eq, ParseStack.top_ofTrail]

def reduced (c : Config) (stack : ParseStack) (rule : Nat) : Config :=
  { c with
    stack := stack
    derivation := { c.derivation with rules := rule :: c.derivation.rules } }

theorem reduce_eq (t : Table) (c : Config) (rule : Nat) :
    c.reduce t rule = (c.stack.reduce t rule).map (c.reduced · rule) := by
  unfold reduce ParseStack.reduce
  rcases c.stack.popRhs t.grammar rule with ⟨_ | _, below⟩
  · rfl
  · dsimp only
    cases t.entry below.top (.nonterminal (t.grammar.rule rule).lhs) with
    | none => rfl
    | some action => cases action <;> rfl

theorem reduce_eq_ok {t : Table} {c : Config} {trail : Trail} {id target : Nat}
    (hstack : c.stack = .ofTrail trail)
    (hsuffix : (t.grammar.rule id).rhs <:+ trail.spelling)
    (hgoto : t.entry (Trail.top (trail.drop (t.grammar.rule id).rhs.length))
      (.nonterminal (t.grammar.rule id).lhs) = some (.goto target)) :
    c.reduce t id =
      .ok (c.reduced (.ofTrail ((.nonterminal (t.grammar.rule id).lhs, target) ::
        trail.drop (t.grammar.rule id).rhs.length)) id) := by
  unfold reduce
  rw [hstack, ParseStack.popRhs_ofTrail hsuffix]
  simp only [ParseStack.top_ofTrail, hgoto]
  rfl

end Config

namespace Table

/-- The moves that a configuration can make by a table. -/
inductive Made (t : Table) (c : Config) : Move → Prop
  | unread {rejection : Rejection} (hlookahead : c.lookahead = .error rejection) :
      t.Made c (.reject rejection)
  | stuck {token : Token} (hlookahead : c.lookahead = .ok token)
      (hentry : t.entry c.stack.top (.terminal token.terminal) = none) :
      t.Made c (.reject (.missingTableEntry c.stack.top
        (t.grammar.terminalName token.terminal) (String.ofList token.before)))
  | shift {token : Token} {target : Nat} (hlookahead : c.lookahead = .ok token)
      (hentry : t.entry c.stack.top (.terminal token.terminal) = some (.shift target)) :
      t.Made c (.shift (.terminal token.terminal) (c.shift t.grammar.toVocabulary token target))
  | reduce {token : Token} {rule : Nat} {stack : ParseStack} (hlookahead : c.lookahead = .ok token)
      (hentry : t.entry c.stack.top (.terminal token.terminal) = some (.reduce rule))
      (hrule : rule ≠ 0) (hreduce : c.stack.reduce t rule = .ok stack) :
      t.Made c (.reduce rule (c.reduced stack rule))
  | accept {token : Token} (hlookahead : c.lookahead = .ok token)
      (hentry : t.entry c.stack.top (.terminal token.terminal) = some (.reduce 0)) :
      t.Made c (.accept c.derivation)
  | contradicted {token : Token} {rejection : Rejection} (hlookahead : c.lookahead = .ok token)
      (hinternal : rejection.isInternal = true) : t.Made c (.reject rejection)

theorem made (t : Table) (c : Config) : t.Made c (t.move c) := by
  unfold move
  cases hlookahead : c.lookahead with
  | error rejection => exact .unread hlookahead
  | ok token =>
      dsimp only
      cases hentry : t.entry c.stack.top (.terminal token.terminal) with
      | none => exact .stuck hlookahead hentry
      | some action =>
          match action with
          | .shift target => exact .shift hlookahead hentry
          | .reduce 0 => exact .accept hlookahead hentry
          | .reduce (rule + 1) =>
              dsimp only
              rw [Config.reduce_eq]
              cases hreduce : c.stack.reduce t (rule + 1) with
              | ok stack => exact .reduce hlookahead hentry (Nat.succ_ne_zero rule) hreduce
              | error rejection =>
                  exact .contradicted hlookahead (ParseStack.isInternal_of_reduce hreduce)
          | .goto target => exact .contradicted hlookahead rfl

section

variable {t : Table} {c : Config} {token : Token}

theorem move_shift {target : Nat} (hlookahead : c.lookahead = .ok token)
    (hentry : t.entry c.stack.top (.terminal token.terminal) = some (.shift target)) :
    t.move c = .shift (.terminal token.terminal)
      (c.shift t.grammar.toVocabulary token target) := by
  rw [move, hlookahead]
  dsimp only
  rw [hentry]

theorem move_reduce {id : Nat} (hlookahead : c.lookahead = .ok token)
    (hentry : t.entry c.stack.top (.terminal token.terminal) = some (.reduce id))
    (hid : id ≠ 0) {after : Config} (hreduce : c.reduce t id = .ok after) :
    t.move c = .reduce id after := by
  obtain ⟨n, rfl⟩ := Nat.exists_eq_succ_of_ne_zero hid
  rw [move, hlookahead]
  dsimp only
  rw [hentry]
  dsimp only
  rw [hreduce]

theorem move_accept (hlookahead : c.lookahead = .ok token)
    (hentry : t.entry c.stack.top (.terminal token.terminal) = some (.reduce 0)) :
    t.move c = .accept c.derivation := by
  rw [move, hlookahead]
  dsimp only
  rw [hentry]

theorem move_stuck (hlookahead : c.lookahead = .ok token)
    (hentry : t.entry c.stack.top (.terminal token.terminal) = none) :
    t.move c = .reject (.missingTableEntry c.stack.top
      (t.grammar.terminalName token.terminal) (String.ofList token.before)) := by
  rw [move, hlookahead]
  dsimp only
  rw [hentry]

end

/-- The moves that a configuration can make on a trail. -/
inductive Acts (a : Automaton) (trail : Trail) (c : Config) : Move → Prop
  | unread {rejection : Rejection} (hlookahead : c.lookahead = .error rejection) :
      Acts a trail c (.reject rejection)
  | stuck {token : Token} (hlookahead : c.lookahead = .ok token)
      (hentry : (build a).entry trail.top (.terminal token.terminal) = none) :
      Acts a trail c (.reject (.missingTableEntry trail.top
        (a.grammar.terminalName token.terminal) (String.ofList token.before)))
  | shift {token : Token} {target : Nat} (hlookahead : c.lookahead = .ok token)
      (hstep : ⟨trail.top, .terminal token.terminal, target⟩ ∈ a.transitions) :
      Acts a trail c
        (.shift (.terminal token.terminal) (c.shift a.grammar.toVocabulary token target))
  | reduce {token : Token} {item : Item} {target : Nat} (hlookahead : c.lookahead = .ok token)
      (hitem : item ∈ a.itemsOf trail.top) (hend : item.atEnd a.grammar = true)
      (htoken : token.terminal ∈ item.lookahead) (hrule : item.rule ≠ 0)
      (hstep : ⟨Trail.top (trail.drop (item.rhs a.grammar).length),
        .nonterminal (a.grammar.rule item.rule).lhs, target⟩ ∈ a.transitions) :
      Acts a trail c (.reduce item.rule
        (c.reduced (.ofTrail ((.nonterminal (a.grammar.rule item.rule).lhs, target) ::
          trail.drop (item.rhs a.grammar).length)) item.rule))
  | accept {token : Token} {item : Item} (hlookahead : c.lookahead = .ok token)
      (hitem : item ∈ a.itemsOf trail.top) (hend : item.atEnd a.grammar = true)
      (htoken : token.terminal ∈ item.lookahead) (hrule : item.rule = 0) :
      Acts a trail c (.accept c.derivation)

theorem acts {a : Automaton} (ha : a.Canonical) {c : Config} {trail : Trail}
    (h : c.On a trail) : Acts a trail c ((build a).move c) := by
  unfold move
  cases hlookahead : c.lookahead with
  | error rejection => exact .unread hlookahead
  | ok token =>
      dsimp only
      rw [h.top_eq]
      cases hentry : (build a).entry trail.top (.terminal token.terminal) with
      | none => exact .stuck hlookahead hentry
      | some action =>
          generalize hsymbol : Symbol.terminal token.terminal = symbol at hentry
          cases proposes_of_entry ha hentry with
          | shift hstep =>
              cases hsymbol
              exact .shift hlookahead hstep
          | goto hstep => cases hsymbol
          | @reduce item t hitem hend ht =>
              cases hsymbol
              cases hrule : item.rule with
              | zero => exact .accept hlookahead hitem hend ht hrule
              | succ id =>
                  have hne : item.rule ≠ 0 := hrule ▸ Nat.succ_ne_zero id
                  obtain ⟨target, hstep⟩ := h.traces.exists_goto_below ha hitem hend hne
                  obtain ⟨_, hspelling, _⟩ := h.traces.history_atEnd ha hitem hend
                  have hreduce : c.reduce (build a) item.rule =
                      .ok (c.reduced (.ofTrail
                        ((.nonterminal (a.grammar.rule item.rule).lhs, target) ::
                          trail.drop (item.rhs a.grammar).length)) item.rule) :=
                    Config.reduce_eq_ok h.stack_eq ⟨_, hspelling.symm⟩ (entry_goto ha hstep)
                  rw [hrule] at hreduce
                  dsimp only
                  rw [hreduce]
                  have hact := Acts.reduce hlookahead hitem hend ht hne hstep
                  rwa [hrule] at hact

end Table
end CanonicalLR
