import CanonicalLR.Proofs.Grammar.First
import Mathlib.Logic.Relation

namespace CanonicalLR

/-! Derivation of forms, in which any nonterminal may be replaced at any time.  As no
rule is empty, the first symbol of a form decides with which terminals the forms
derived from it can begin. -/

namespace Grammar

/-- One nonterminal of a form gives way to the right-hand side of one of its rules. -/
inductive Replaces (g : Grammar) : List Symbol → List Symbol → Prop
  | intro {n id : Nat} (hid : id ∈ g.rulesOf n) (before after : List Symbol) :
      g.Replaces (before ++ .nonterminal n :: after) (before ++ (g.rule id).rhs ++ after)

def Derives (g : Grammar) : List Symbol → List Symbol → Prop :=
  Relation.ReflTransGen g.Replaces

/-- Some form that a symbol derives begins with the terminal. -/
def CanBegin (g : Grammar) (symbol : Symbol) (t : Terminal) : Prop :=
  ∃ rest, g.Derives [symbol] (.terminal t :: rest)

variable {g : Grammar} {form other : List Symbol}

theorem Replaces.append_right (h : g.Replaces form other) (after : List Symbol) :
    g.Replaces (form ++ after) (other ++ after) := by
  cases h with
  | intro hid before behind =>
      simpa using Replaces.intro hid before (behind ++ after)

theorem Replaces.append_left (h : g.Replaces form other) (before : List Symbol) :
    g.Replaces (before ++ form) (before ++ other) := by
  cases h with
  | intro hid front after =>
      simpa using Replaces.intro hid (before ++ front) after

theorem Derives.append_right (h : g.Derives form other) (after : List Symbol) :
    g.Derives (form ++ after) (other ++ after) := by
  induction h with
  | refl => exact .refl
  | tail _ hstep ih => exact ih.tail (hstep.append_right after)

theorem Derives.append_left (h : g.Derives form other) (before : List Symbol) :
    g.Derives (before ++ form) (before ++ other) := by
  induction h with
  | refl => exact .refl
  | tail _ hstep ih => exact ih.tail (hstep.append_left before)

theorem Derives.rule {n id : Nat} (hid : id ∈ g.rulesOf n) :
    g.Derives [.nonterminal n] (g.rule id).rhs := by
  have hstep := Replaces.intro hid [] []
  rw [List.append_nil] at hstep
  exact .single hstep

theorem Begins.canBegin {symbol : Symbol} {t : Terminal} (h : g.Begins symbol t) :
    g.CanBegin symbol t := by
  induction h with
  | terminal t => exact ⟨[], .refl⟩
  | @rule n id symbol rest t hid hrhs _ ih =>
      obtain ⟨more, hderives⟩ := ih
      have hrest := hderives.append_right rest
      rw [List.singleton_append, ← hrhs] at hrest
      exact ⟨more ++ rest, (Derives.rule hid).trans hrest⟩

/-- A replacement behind the first symbol leaves it, and a replacement of it leaves
the first symbol of a right-hand side. -/
theorem Replaces.begins (hg : g.WellFormed) (h : g.Replaces form other) {t : Terminal}
    {first : Symbol} (hother : other.head? = some first) (hbegins : g.Begins first t) :
    ∃ symbol, form.head? = some symbol ∧ g.Begins symbol t := by
  cases h with
  | @intro n id hid before after =>
      cases before with
      | cons symbol before => exact ⟨first, hother, hbegins⟩
      | nil =>
          obtain ⟨symbol, rest, hrhs⟩ :=
            List.exists_cons_of_ne_nil (hg.rhs_ne_nil (mem_rulesOf.mp hid).1)
          rw [hrhs] at hother
          cases hother
          exact ⟨_, rfl, .rule hid hrhs hbegins⟩

theorem Derives.begins (hg : g.WellFormed) {t : Terminal} {rest : List Symbol}
    (h : g.Derives form (.terminal t :: rest)) :
    ∃ symbol, form.head? = some symbol ∧ g.Begins symbol t := by
  induction h using Relation.ReflTransGen.head_induction_on with
  | refl => exact ⟨.terminal t, rfl, .terminal t⟩
  | head hstep _ ih =>
      obtain ⟨first, hfirst, hbegins⟩ := ih
      exact hstep.begins hg hfirst hbegins

theorem canBegin_iff (hg : g.WellFormed) {symbol : Symbol} {t : Terminal} :
    g.CanBegin symbol t ↔ g.Begins symbol t := by
  refine ⟨fun ⟨rest, hderives⟩ => ?_, Begins.canBegin⟩
  obtain ⟨first, hfirst, hbegins⟩ := hderives.begins hg
  cases hfirst
  exact hbegins

end Grammar
end CanonicalLR
