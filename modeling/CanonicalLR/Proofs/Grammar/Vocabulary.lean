import CanonicalLR.Proofs.Grammar.Segmentation
import CanonicalLR.Proofs.Item.Closure
import Mathlib.Data.List.Nodup

namespace CanonicalLR

/-! A name stands for one symbol when no two lists of names share one.  Three of the checks
made while a grammar is built are needed for this: the end marker is no terminal and no
nonterminal, and no nonterminal is a terminal. -/

namespace Vocabulary

structure Disjoint (v : Vocabulary) : Prop where
  alphabet_nodup : v.alphabet.Nodup
  nonterminals_nodup : v.nonterminals.Nodup
  alphabet_ne : ∀ name ∈ v.alphabet, name ≠ "" ∧ name ≠ endMarkerName
  nonterminals_ne : ∀ name ∈ v.nonterminals, name ≠ "" ∧ name ≠ endMarkerName
  not_mem_alphabet : ∀ name ∈ v.nonterminals, name ∉ v.alphabet

variable {v : Vocabulary}

theorem idxOf?_of_getElem? {names : List String} (hnames : names.Nodup) {index : Nat}
    {name : String} (h : names[index]? = some name) : names.idxOf? name = some index := by
  obtain ⟨hlt, rfl⟩ := List.getElem?_eq_some_iff.mp h
  refine List.idxOf?_eq_some_iff.mpr ⟨hlt, rfl, fun other hother heq => ?_⟩
  exact Nat.ne_of_lt hother ((List.Nodup.getElem_inj_iff hnames).mp heq)

theorem alphabet_getElem? {index : Nat} (h : .terminal (.token index) ∈ v.symbols) :
    v.alphabet[index]? = some (v.name (.terminal (.token index))) := by
  rw [terminal_mem_symbols, token_mem_terminals] at h
  rw [name_terminal, terminalName, List.getD_eq_getElem?_getD, List.getElem?_eq_getElem h]
  rfl

theorem nonterminals_getElem? {index : Nat} (h : .nonterminal index ∈ v.symbols) :
    v.nonterminals[index]? = some (v.name (.nonterminal index)) := by
  rw [nonterminal_mem_symbols] at h
  rw [name_nonterminal, nonterminalName, List.getD_eq_getElem?_getD,
    List.getElem?_eq_getElem h]
  rfl

theorem nonterminalName_idxOf {name : String} (h : name ∈ v.nonterminals) :
    v.nonterminalName (v.nonterminals.idxOf name) = name := by
  have hlt := List.idxOf_lt_length_iff.mpr h
  rw [nonterminalName, List.getD_eq_getElem?_getD, List.getElem?_eq_getElem hlt,
    List.getElem_idxOf hlt]
  rfl

/-- Every name fits on one line. -/
def Unbroken (v : Vocabulary) : Prop :=
  ∀ name ∈ v.alphabet ++ v.nonterminals, '\n' ∉ name.toList

instance (v : Vocabulary) : Decidable v.Unbroken :=
  inferInstanceAs (Decidable (∀ name ∈ v.alphabet ++ v.nonterminals, '\n' ∉ name.toList))

theorem not_mem_getD {names : List String} {c : Char} (h : ∀ name ∈ names, c ∉ name.toList)
    (index : Nat) : c ∉ (names.getD index "").toList := by
  rw [List.getD_eq_getElem?_getD]
  cases hname : names[index]? with
  | none => exact List.not_mem_nil
  | some name => exact h name (List.mem_of_getElem? hname)

theorem Unbroken.name (hv : v.Unbroken) (symbol : Symbol) : '\n' ∉ (v.name symbol).toList := by
  cases symbol with
  | nonterminal index =>
      exact not_mem_getD (fun name hname => hv name (List.mem_append_right _ hname)) index
  | terminal terminal =>
      cases terminal with
      | token index =>
          exact not_mem_getD (fun name hname => hv name (List.mem_append_left _ hname)) index
      | endMarker =>
          rw [name_terminal, terminalName_endMarker]
          decide

theorem symbols_nodup (v : Vocabulary) : v.symbols.Nodup := by
  have hterminals : v.terminals.Nodup := by
    refine List.nodup_append.mpr ⟨?_, by simp, by simp⟩
    exact List.nodup_range.map fun _ _ h => Terminal.token.inj h
  refine List.nodup_append.mpr ⟨?_, ?_, by simp⟩
  · exact List.nodup_range.map fun _ _ h => Symbol.nonterminal.inj h
  · exact hterminals.map fun _ _ h => Symbol.terminal.inj h

/-- Looking up the name of a symbol finds the symbol. -/
theorem Disjoint.symbol?_name (hv : v.Disjoint) {symbol : Symbol} (h : symbol ∈ v.symbols) :
    v.symbol? (v.name symbol) = some symbol := by
  cases symbol with
  | nonterminal index =>
      have hfound := idxOf?_of_getElem? hv.nonterminals_nodup (nonterminals_getElem? h)
      rw [symbol?, nonterminal?, hfound]
  | terminal terminal =>
      cases terminal with
      | endMarker =>
          have hnone : v.nonterminal? endMarkerName = none :=
            List.idxOf?_eq_none_iff.mpr fun hmem => (hv.nonterminals_ne _ hmem).2 rfl
          rw [name_terminal, terminalName_endMarker, symbol?, hnone, terminal?]
          rfl
      | token index =>
          have hname := alphabet_getElem? h
          have hmem := List.mem_of_getElem? hname
          have hnone : v.nonterminal? (v.name (.terminal (.token index))) = none :=
            List.idxOf?_eq_none_iff.mpr fun hother => hv.not_mem_alphabet _ hother hmem
          rw [symbol?, hnone, terminal?, if_neg (hv.alphabet_ne _ hmem).2,
            idxOf?_of_getElem? hv.alphabet_nodup hname]
          rfl

theorem Disjoint.distinct (hv : v.Disjoint) : v.Distinct where
  name_ne symbol h := by
    cases symbol with
    | nonterminal index =>
        exact (hv.nonterminals_ne _ (List.mem_of_getElem? (nonterminals_getElem? h))).1
    | terminal terminal =>
        cases terminal with
        | endMarker =>
            rw [name_terminal, terminalName_endMarker]
            decide
        | token index => exact (hv.alphabet_ne _ (List.mem_of_getElem? (alphabet_getElem? h))).1
  name_injective first hfirst second hsecond heq := by
    have hlookup := hv.symbol?_name hfirst
    rw [heq, hv.symbol?_name hsecond] at hlookup
    exact (Option.some.inj hlookup).symm

theorem known_iff {name : String} :
    v.Known name ↔ name ∈ v.nonterminals ∨ name ∈ v.alphabet ∨ name = endMarkerName := by
  constructor
  · rintro ⟨symbol, h, rfl⟩
    cases symbol with
    | nonterminal index => exact .inl (List.mem_of_getElem? (nonterminals_getElem? h))
    | terminal terminal =>
        cases terminal with
        | token index => exact .inr (.inl (List.mem_of_getElem? (alphabet_getElem? h)))
        | endMarker => exact .inr (.inr rfl)
  · rintro (h | h | rfl)
    · obtain ⟨index, hlt, rfl⟩ := List.getElem_of_mem h
      have hmem : .nonterminal index ∈ v.symbols := by simpa using hlt
      have hname := nonterminals_getElem? hmem
      rw [List.getElem?_eq_getElem hlt] at hname
      exact ⟨_, hmem, (Option.some.inj hname).symm⟩
    · obtain ⟨index, hlt, rfl⟩ := List.getElem_of_mem h
      have hmem : .terminal (.token index) ∈ v.symbols := by simpa using hlt
      have hname := alphabet_getElem? hmem
      rw [List.getElem?_eq_getElem hlt] at hname
      exact ⟨_, hmem, (Option.some.inj hname).symm⟩
    · exact ⟨.terminal .endMarker, by simp, rfl⟩

end Vocabulary
end CanonicalLR
