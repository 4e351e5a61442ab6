import CanonicalLR.Proofs.Indexed.Table
import CanonicalLR.Proofs.Indexed.Tokens
import CanonicalLR.Proofs.Parsing.Consistency

namespace CanonicalLR

open Indexed

/-! A parser that reads the table, the rules and the input at the places it is told. -/

structure Cursor where
  stack : ParseStack
  lookahead : Except Rejection SpanToken
  tokens : Tokens
  derivation : Derivation

namespace ParseStack

def popRhs? (c : Catalog) (id : Nat) (stack : ParseStack) :
    Option (Except Rejection Unit × ParseStack) := do
  let rule ← c.rule? id
  let underflow : Except Rejection Unit := .error (.reduceStackUnderflow id stack.top)
  match unwind [] rule.rhs.length stack.entries with
  | (none, entries) => return (underflow, ⟨entries⟩)
  | (some taken, entries) =>
      if taken ≠ rule.rhs then do
        let names ← taken.mapM c.name?
        return (.error (.rhsMismatch id (String.join names)), ⟨entries⟩)
      else
        match entries with
        | .state _ :: _ => return (.ok (), ⟨entries⟩)
        | _ => return (underflow, ⟨entries⟩)

end ParseStack

namespace Cursor

def start? (s : Sheet) (input : List Char) : Option Cursor := do
  let (lookahead, tokens) ← Tokens.fetch? s.layout.catalog.toVocabulary input ⟨0, false⟩
  return ⟨.fresh, lookahead, tokens, ⟨[], 0⟩⟩

def shift? (s : Sheet) (input : List Char) (c : Cursor) (token : SpanToken) (target : Nat) :
    Option Cursor :=
  let stack := c.stack.push (.terminal token.terminal) target
  let derivation := { c.derivation with shifts := c.derivation.shifts + 1 }
  if token.terminal = .endMarker then
    some { c with stack := stack, derivation := derivation }
  else do
    let (lookahead, tokens) ← c.tokens.fetch? s.layout.catalog.toVocabulary input
    return ⟨stack, lookahead, tokens, derivation⟩

def reduce? (s : Sheet) (c : Cursor) (id : Nat) : Option (Except Rejection Cursor) := do
  let rule ← s.layout.catalog.rule? id
  match ← c.stack.popRhs? s.layout.catalog id with
  | (.error rejection, _) => return .error rejection
  | (.ok (), stack) =>
      match ← s.entry? stack.top (.nonterminal rule.lhs) with
      | some (.goto target) =>
          return .ok { c with
            stack := stack.push (.nonterminal rule.lhs) target
            derivation := { c.derivation with rules := id :: c.derivation.rules } }
      | _ => do
          let name ← s.layout.catalog.nonterminalName? rule.lhs
          return .error (.missingGoto stack.top name)

/-- Either the next cursor, or how parsing ends. -/
def step? (s : Sheet) (input : List Char) (c : Cursor) : Option (Except Outcome Cursor) :=
  match c.lookahead with
  | .error rejection => some (.error (.rejected rejection))
  | .ok token => do
      match ← s.entry? c.stack.top (.terminal token.terminal) with
      | none => do
          let name ← s.layout.catalog.terminalName? token.terminal
          let consumed ← Text.sliceTo? token.start input
          return .error (.rejected
            (.missingTableEntry c.stack.top name (String.ofList consumed)))
      | some (.shift target) => do
          let next ← c.shift? s input token target
          return .ok next
      | some (.reduce 0) => return .error (.accepted c.derivation)
      | some (.reduce (id + 1)) => do
          let result ← c.reduce? s (id + 1)
          return result.mapError .rejected
      | some (.goto _) => do
          let name ← s.layout.catalog.terminalName? token.terminal
          return .error (.rejected (.gotoOnTerminal c.stack.top name))

def run? (s : Sheet) (input : List Char) : Nat → Cursor → Option Outcome
  | 0, _ => some .endless
  | budget + 1, c => do
      match ← c.step? s input with
      | .error outcome => return outcome
      | .ok next => run? s input budget next

end Cursor

/-- Parsing within so many steps. -/
def Sheet.parse? (s : Sheet) (budget : Nat) (input : String) : Option Outcome := do
  Cursor.run? s input.toList budget (← Cursor.start? s input.toList)

namespace Config

def cursor (c : Config) : Cursor :=
  ⟨c.stack, c.lookahead.map Token.spanned, c.scanner.tokens, c.derivation⟩

/-- What the places that are read owe to the automaton and to the input. -/
structure Within (a : Automaton) (input : List Char) (c : Config) : Prop where
  steady : c.Steady a
  splits : c.scanner.Splits input
  token_mem : ∀ token, c.lookahead = .ok token → token.terminal ∈ a.grammar.terminals
  before_begins : ∀ token, c.lookahead = .ok token → token.before <+: input

end Config

/-- How a move goes on, or how it ends the run. -/
def Move.result : Move → Except Outcome Cursor
  | .shift _ next => .ok next.cursor
  | .reduce _ next => .ok next.cursor
  | .accept derivation => .error (.accepted derivation)
  | .reject rejection => .error (.rejected rejection)

/-! Each step reads what the move of the parser is about. -/

namespace ParseStack

variable {g : Grammar} {id : Nat} {stack : ParseStack}

/-- Only where symbols are not the expected ones, names are looked up. -/
theorem popRhs?_of_names (hid : id < g.rules.length)
    (hnames : ∀ taken rest,
      unwind [] (g.rule id).rhs.length stack.entries = (some taken, rest) →
        taken ≠ (g.rule id).rhs →
        taken.mapM g.catalog.toVocabulary.name? = some (taken.map g.name)) :
    stack.popRhs? g.catalog id = some (stack.popRhs g id) := by
  rw [popRhs?, Grammar.rule?_catalog hid, Option.bind_eq_bind, Option.bind_some, popRhs]
  dsimp only
  rcases hunwind : unwind [] (g.rule id).rhs.length stack.entries with ⟨taken, entries⟩
  cases taken with
  | none => rfl
  | some taken =>
      dsimp only
      by_cases htaken : taken = (g.rule id).rhs
      · have hsame : ¬ taken ≠ (g.rule id).rhs := not_not_intro htaken
        rw [if_neg hsame, if_neg hsame]
        rcases entries with _ | ⟨_ | _, _⟩ <;> rfl
      · have hother : taken ≠ (g.rule id).rhs := htaken
        rw [if_pos hother, if_pos hother, hnames taken entries hunwind hother,
          Option.bind_eq_bind, Option.bind_some]
        rfl

theorem popRhs?_eq {rest : ParseStack} (hid : id < g.rules.length)
    (h : stack.popRhs g id = (.ok (), rest)) :
    stack.popRhs? g.catalog id = some (.ok (), rest) := by
  rw [← h]
  refine popRhs?_of_names hid fun taken entries hunwind hother => ?_
  unfold popRhs at h
  dsimp only at h
  rw [hunwind] at h
  dsimp only at h
  rw [if_pos hother] at h
  cases h

end ParseStack

namespace Config

variable {a : Automaton} {input : List Char} {c : Config}

theorem within_of_fetch {s : Scanner} (hsplits : s.Splits input) (hsteady : c.Steady a)
    (hlookahead : c.lookahead = (s.fetch a.grammar.toVocabulary).1)
    (hscanner : c.scanner = (s.fetch a.grammar.toVocabulary).2) : c.Within a input where
  steady := hsteady
  splits := hscanner ▸ Scanner.Splits.fetch hsplits
  token_mem _ htoken := (Scanner.Splits.fetch_token hsplits (hlookahead ▸ htoken)).1
  before_begins _ htoken := (Scanner.Splits.fetch_token hsplits (hlookahead ▸ htoken)).2

theorem ofInput_within (a : Automaton) (text : String) :
    (ofInput a.grammar.toVocabulary text).Within a text.toList :=
  within_of_fetch (s := Scanner.ofInput text) rfl (ofInput_steady a text) rfl rfl

theorem Within.next (ha : a.Canonical) (h : c.Within a input) {next : Config}
    (hnext : (Table.build a).Next c next) : next.Within a input := by
  have hsteady := h.steady.next ha hnext
  obtain ⟨trail, hon⟩ := h.steady.exists_on
  rcases hnext.cases ha hon with
    ⟨token, target, hlookahead, _, rfl⟩ | ⟨_, item, target, _, _, _, _, _, _, rfl⟩
  · by_cases hmarker : token.terminal = .endMarker
    · rw [shift_endMarker hmarker] at hsteady ⊢
      exact ⟨hsteady, h.splits, h.token_mem, h.before_begins⟩
    · rw [shift_token hmarker] at hsteady ⊢
      exact within_of_fetch h.splits hsteady rfl rfl
  · exact ⟨hsteady, h.splits, h.token_mem, h.before_begins⟩

theorem Within.shift?_eq (h : c.Within a input) (token : Token) (target : Nat) :
    c.cursor.shift? (Table.build a).sheet input token.spanned target =
      some (c.shift a.grammar.toVocabulary token target).cursor := by
  by_cases hmarker : token.terminal = .endMarker
  · rw [shift_endMarker hmarker]
    exact if_pos hmarker
  · have hfetch : c.cursor.tokens.fetch? (Table.build a).sheet.layout.catalog.toVocabulary input =
        some ((c.scanner.fetch a.grammar.toVocabulary).1.map Token.spanned,
          (c.scanner.fetch a.grammar.toVocabulary).2.tokens) := h.splits.fetch?_eq
    have hother : ¬token.spanned.terminal = .endMarker := hmarker
    rw [shift_token hmarker, Cursor.shift?, if_neg hother, hfetch]
    rfl

theorem rule_lt_of_entry (ha : a.Canonical) {state id : Nat} {symbol : Symbol}
    (hentry : (Table.build a).entry state symbol = some (.reduce id)) :
    id < a.grammar.rules.length := by
  cases Table.proposes_of_entry ha hentry with
  | reduce hitem => exact (ha.proper _ hitem).rule_lt

theorem Within.reduce?_eq (ha : a.Canonical) (h : c.Within a input) {t : Terminal} {id : Nat}
    (hentry : (Table.build a).entry c.stack.top (.terminal t) = some (.reduce (id + 1))) :
    c.cursor.reduce? (Table.build a).sheet (id + 1) =
      some ((c.reduce (.build a) (id + 1)).map Config.cursor) := by
  have hid := rule_lt_of_entry ha hentry
  obtain ⟨stack, state, target, hpop, htop, hgoto⟩ :=
    h.steady.exposes ha hentry (Nat.succ_ne_zero id)
  have hexposed : stack.top = state := by rw [ParseStack.top, htop, Option.getD_some]
  have hrule : (Table.build a).sheet.layout.catalog.rule? (id + 1) =
      some (a.grammar.rule (id + 1)) := Grammar.rule?_catalog hid
  have hpopped : c.cursor.stack.popRhs? (Table.build a).sheet.layout.catalog (id + 1) =
      some (.ok (), stack) := ParseStack.popRhs?_eq hid hpop
  have hpop : c.stack.popRhs (Table.build a).grammar (id + 1) = (.ok (), stack) := hpop
  have hlhs : (Table.build a).grammar.rule (id + 1) = a.grammar.rule (id + 1) := rfl
  rw [Cursor.reduce?, hrule, Option.bind_eq_bind, Option.bind_some, hpopped, Option.bind_eq_bind,
    Option.bind_some, reduce, hpop]
  dsimp only
  rw [Table.entry?_sheet, hlhs, hexposed, hgoto]
  rfl

theorem Within.step?_eq (ha : a.Canonical) (h : c.Within a input) :
    c.cursor.step? (Table.build a).sheet input = some ((Table.build a).move c).result := by
  have hstack : c.cursor.stack = c.stack := rfl
  rw [Table.move, Cursor.step?, hstack]
  cases hlookahead : c.lookahead with
  | error rejection =>
      have hcurrent : c.cursor.lookahead = .error rejection := by rw [cursor, hlookahead]; rfl
      rw [hcurrent]
      rfl
  | ok token =>
      have hcurrent : c.cursor.lookahead = .ok token.spanned := by rw [cursor, hlookahead]; rfl
      have hterminal : token.spanned.terminal = token.terminal := rfl
      have hname : (Table.build a).sheet.layout.catalog.terminalName? token.terminal =
          some (a.grammar.terminalName token.terminal) :=
        Vocabulary.terminalName?_eq (h.token_mem token hlookahead)
      rw [hcurrent]
      dsimp only
      rw [hterminal, Table.entry?_sheet, Option.bind_eq_bind, Option.bind_some]
      cases hentry : (Table.build a).entry c.stack.top (.terminal token.terminal) with
      | none =>
          obtain ⟨rest, rfl⟩ := h.before_begins token hlookahead
          have hstart : token.spanned.start = Text.byteLength token.before :=
            (Text.byteLength_reverse token.passed).symm
          dsimp only
          rw [hname, hstart, Text.sliceTo?_append]
          rfl
      | some action =>
          cases action with
          | shift target =>
              dsimp only
              rw [h.shift?_eq token target]
              rfl
          | goto target =>
              dsimp only
              rw [hname]
              rfl
          | reduce id =>
              cases id with
              | zero => rfl
              | succ id =>
                  dsimp only
                  rw [h.reduce?_eq ha hentry]
                  cases c.reduce (Table.build a) (id + 1) <;> rfl

theorem Within.run?_eq (ha : a.Canonical) (h : c.Within a input) (budget : Nat) :
    c.cursor.run? (Table.build a).sheet input budget = some ((Table.build a).run budget c) := by
  induction budget generalizing c with
  | zero => rfl
  | succ budget ih =>
      rw [Cursor.run?, h.step?_eq ha, Option.bind_eq_bind, Option.bind_some, Table.run]
      cases hmove : (Table.build a).move c with
      | shift symbol next => exact ih (h.next ha (.shift hmove))
      | reduce rule next => exact ih (h.next ha (.reduce hmove))
      | accept derivation => rfl
      | reject rejection => rfl

end Config

/-- A parser finds all that it reads, whatever the input and however long it runs. -/
theorem Table.parse?_eq {a : Automaton} (ha : a.Canonical) (budget : Nat) (input : String) :
    (build a).sheet.parse? budget input =
      some ((build a).run budget (.ofInput a.grammar.toVocabulary input)) := by
  have hstart : Cursor.start? (build a).sheet input.toList =
      some (Config.ofInput a.grammar.toVocabulary input).cursor := by
    have hfetch : Tokens.fetch? (build a).sheet.layout.catalog.toVocabulary input.toList
        ⟨0, false⟩ =
          some (((Scanner.ofInput input).fetch a.grammar.toVocabulary).1.map Token.spanned,
            ((Scanner.ofInput input).fetch a.grammar.toVocabulary).2.tokens) :=
      Scanner.Splits.fetch?_eq (s := Scanner.ofInput input) rfl
    rw [Cursor.start?, hfetch]
    rfl
  rw [Sheet.parse?, hstart]
  exact (Config.ofInput_within a input).run?_eq ha budget

end CanonicalLR
