import CanonicalLR.Proofs.Grammar.WellFormed

namespace CanonicalLR

/-! The FIRST sets of a grammar hold exactly the terminals that can begin what
its nonterminals derive.  The search for them ends within its budget, because
each visit either shortens the list of pending nonterminals or enlarges a set. -/

namespace OrderedSet

variable {α : Type} [Ord α] [Std.LawfulEqOrd α] {first second : OrderedSet α}

theorem size_le_of_subset (h : ∀ x ∈ first, x ∈ second) : first.size ≤ second.size :=
  first.nodup.length_le_of_subset h

theorem mem_of_size_le (h : ∀ x ∈ first, x ∈ second) (hsize : second.size ≤ first.size)
    {x : α} (hx : x ∈ second) : x ∈ first := by
  apply Classical.byContradiction
  intro hnot
  have hnodup : (x :: first.toList).Nodup := List.nodup_cons.mpr ⟨hnot, first.nodup⟩
  have hsubset : x :: first.toList ⊆ second.toList := by
    intro y hy
    rcases List.mem_cons.mp hy with rfl | hy
    · exact hx
    · exact h y hy
  have hlength : first.size + 1 ≤ second.size := hnodup.length_le_of_subset hsubset
  omega

end OrderedSet

namespace Grammar

/-- Terminals that can begin what a symbol derives.  No rule is empty, so the
first symbol of a right-hand side decides. -/
inductive Begins (g : Grammar) : Symbol → Terminal → Prop
  | terminal (t : Terminal) : g.Begins (.terminal t) t
  | rule {n id : Nat} {symbol : Symbol} {rest : List Symbol} {t : Terminal}
      (hid : id ∈ g.rulesOf n) (hrhs : (g.rule id).rhs = symbol :: rest)
      (hbegins : g.Begins symbol t) : g.Begins (.nonterminal n) t

theorem rule_mem {g : Grammar} {id : Nat} (hid : id < g.rules.length) :
    g.rule id ∈ g.rules :=
  List.mem_of_getElem? (getElem?_rules hid)

theorem exists_rule_of_mem {g : Grammar} {rule : Rule} (h : rule ∈ g.rules) :
    ∃ id, id ∈ g.rulesOf rule.lhs ∧ g.rule id = rule := by
  obtain ⟨id, hid, rfl⟩ := List.mem_iff_getElem.mp h
  have hrule : g.rule id = g.rules[id] := by
    have := getElem?_rules hid
    rw [List.getElem?_eq_getElem hid] at this
    exact (Option.some.inj this).symm
  exact ⟨id, mem_rulesOf.mpr ⟨hid, by rw [hrule]⟩, hrule⟩

theorem Begins.mem_terminals {g : Grammar} (hg : g.WellFormed) {symbol : Symbol}
    {t : Terminal} (h : g.Begins symbol t) (hsymbol : symbol ∈ g.symbols) :
    t ∈ g.terminals := by
  induction h with
  | terminal t => exact Vocabulary.terminal_mem_symbols.mp hsymbol
  | rule hid hrhs _ ih =>
      apply ih
      apply hg.symbol_mem (mem_rulesOf.mp hid).1
      rw [hrhs]
      exact List.mem_cons_self

end Grammar

namespace First

theorem mem_foldl_union {sets : List TerminalSet} {rules : List Rule} {set : TerminalSet}
    {t : Terminal} :
    t ∈ rules.foldl (fun set rule => set.union (ofRule sets rule)) set ↔
      t ∈ set ∨ ∃ rule ∈ rules, t ∈ ofRule sets rule := by
  induction rules generalizing set with
  | nil => simp
  | cons rule rules ih =>
      rw [List.foldl_cons, ih, OrderedSet.mem_union, or_assoc]
      simp

theorem mem_enlarge {rules : List Rule} {sets : List TerminalSet} {n : Nat} {t : Terminal} :
    t ∈ enlarge rules sets n ↔
      t ∈ sets.getD n .empty ∨ ∃ rule ∈ rules, rule.lhs = n ∧ t ∈ ofRule sets rule := by
  rw [enlarge, mem_foldl_union]
  simp only [List.mem_filter, decide_eq_true_eq, and_assoc]

theorem mem_dependents {rules : List Rule} {n m : Nat} :
    m ∈ dependents rules n ↔
      ∃ rule ∈ rules, rule.rhs.head? = some (.nonterminal n) ∧ rule.lhs = m := by
  have h : m ∈ dependents rules n ↔ m ∈ (rules.filter fun rule =>
      rule.rhs.head? = some (.nonterminal n)).map Rule.lhs := OrderedSet.mem_ofList
  rw [h, List.mem_map]
  simp only [List.mem_filter, decide_eq_true_eq, and_assoc]

theorem ofRule_set {sets : List TerminalSet} {rule : Rule} {n : Nat}
    (h : rule.rhs.head? ≠ some (.nonterminal n)) (set : TerminalSet) :
    ofRule (sets.set n set) rule = ofRule sets rule := by
  unfold ofRule
  split
  · rfl
  next symbol hhead =>
    cases symbol with
    | terminal t => rfl
    | nonterminal m =>
        have hne : n ≠ m := by
          rintro rfl
          exact h hhead
        simp [ofSymbol, List.getD_eq_getElem?_getD, List.getElem?_set_ne hne]

/-! How far the sets have grown. -/

def total (sets : List TerminalSet) : Nat :=
  sets.foldr (fun set count => set.size + count) 0

theorem total_set {sets : List TerminalSet} {n : Nat} (hn : n < sets.length)
    (set : TerminalSet) :
    total (sets.set n set) + (sets.getD n .empty).size = total sets + set.size := by
  induction sets generalizing n with
  | nil => exact absurd hn (Nat.not_lt_zero n)
  | cons head sets ih =>
      cases n with
      | zero =>
          simp [total]
          omega
      | succ n =>
          have := ih (Nat.lt_of_succ_lt_succ hn)
          simp only [total, List.set_cons_succ, List.foldr_cons,
            List.getD_cons_succ] at this ⊢
          omega

theorem total_le {sets : List TerminalSet} {bound : Nat}
    (h : ∀ set ∈ sets, set.size ≤ bound) : total sets ≤ sets.length * bound := by
  induction sets with
  | nil => simp [total]
  | cons set sets ih =>
      have hhead := h set List.mem_cons_self
      have htail := ih fun other hother => h other (List.mem_cons_of_mem set hother)
      simp only [total, List.foldr_cons, List.length_cons, Nat.succ_mul] at htail ⊢
      omega

namespace Progress

/-- What holds between visits. -/
structure Sound (g : Grammar) (p : Progress) : Prop where
  length_sets : p.sets.length = g.nonterminals.length
  pending_lt : ∀ n ∈ p.pending, n < g.nonterminals.length
  begins : ∀ {n t}, t ∈ p.sets.getD n .empty → g.Begins (.nonterminal n) t
  stable : ∀ rule ∈ g.rules, rule.lhs ∉ p.pending →
    ∀ t ∈ ofRule p.sets rule, t ∈ p.sets.getD rule.lhs .empty

variable {g : Grammar} {p : Progress}

theorem start_sound (hg : g.WellFormed) : (start g.nonterminals.length).Sound g where
  length_sets := List.length_replicate
  pending_lt n hn := List.mem_range.mp hn
  begins {n t} ht := by
    rw [start, List.getD_eq_getElem?_getD, List.getElem?_replicate] at ht
    split at ht <;> exact absurd ht (OrderedSet.not_mem_empty t)
  stable rule hrule hpending := by
    obtain ⟨id, hid, rfl⟩ := Grammar.exists_rule_of_mem hrule
    exact absurd (List.mem_range.mpr (hg.lhs_lt (Grammar.mem_rulesOf.mp hid).1)) hpending

theorem Sound.ofRule_begins (hp : p.Sound g) {rule : Rule} (hrule : rule ∈ g.rules)
    {t : Terminal} (ht : t ∈ ofRule p.sets rule) : g.Begins (.nonterminal rule.lhs) t := by
  obtain ⟨id, hid, rfl⟩ := Grammar.exists_rule_of_mem hrule
  unfold ofRule at ht
  split at ht
  · exact absurd ht (OrderedSet.not_mem_empty t)
  next symbol hhead =>
    obtain ⟨rest, hrhs⟩ := List.head?_eq_some_iff.mp hhead
    refine .rule hid hrhs ?_
    cases symbol with
    | terminal other =>
        rw [OrderedSet.mem_singleton.mp ht]
        exact .terminal other
    | nonterminal m => exact hp.begins ht

theorem Sound.enlarge_begins (hp : p.Sound g) {n : Nat} {t : Terminal}
    (ht : t ∈ enlarge g.rules p.sets n) : g.Begins (.nonterminal n) t := by
  rcases mem_enlarge.mp ht with hold | ⟨rule, hrule, rfl, hnew⟩
  · exact hp.begins hold
  · exact hp.ofRule_begins hrule hnew

/-- A visit that enlarges a set leaves the nonterminals that look at it pending. -/
theorem Sound.visit (hp : p.Sound g) {n : Nat} {rest : List Nat}
    (hpending : p.pending = n :: rest) (hg : g.WellFormed) :
    (p.visit g.rules n rest).Sound g := by
  have hsubset : ∀ t ∈ p.sets.getD n .empty, t ∈ enlarge g.rules p.sets n :=
    fun t ht => mem_enlarge.mpr (.inl ht)
  have hn : n < p.sets.length := by
    rw [hp.length_sets]
    exact hp.pending_lt n (by rw [hpending]; exact List.mem_cons_self)
  have hrest : ∀ m ∈ rest, m < g.nonterminals.length := fun m hm =>
    hp.pending_lt m (by rw [hpending]; exact List.mem_cons_of_mem n hm)
  unfold Progress.visit
  dsimp only
  split
  next hsize =>
    refine ⟨hp.length_sets, hrest, hp.begins, fun rule hrule hnot t ht => ?_⟩
    by_cases hlhs : rule.lhs = n
    · rw [hlhs]
      exact OrderedSet.mem_of_size_le hsubset (Nat.le_of_eq hsize)
        (mem_enlarge.mpr (.inr ⟨rule, hrule, hlhs, ht⟩))
    · exact hp.stable rule hrule (by simp [hpending, hlhs, hnot]) t ht
  next =>
    have hself : (p.sets.set n (enlarge g.rules p.sets n)).getD n .empty =
        enlarge g.rules p.sets n := by
      simp [List.getD_eq_getElem?_getD, hn]
    have hother : ∀ {m}, m ≠ n → (p.sets.set n (enlarge g.rules p.sets n)).getD m .empty =
        p.sets.getD m .empty := fun {m} hm => by
      simp [List.getD_eq_getElem?_getD, List.getElem?_set_ne (Ne.symm hm)]
    refine ⟨by simpa using hp.length_sets, fun m hm => ?_, fun {m t} ht => ?_,
      fun rule hrule hnot t ht => ?_⟩
    · rcases List.mem_append.mp hm with hm | hm
      · exact hrest m hm
      · obtain ⟨rule, hrule, _, rfl⟩ := mem_dependents.mp (List.mem_filter.mp hm).1
        obtain ⟨id, hid, rfl⟩ := Grammar.exists_rule_of_mem hrule
        exact hg.lhs_lt (Grammar.mem_rulesOf.mp hid).1
    · by_cases hm : m = n
      · subst hm
        exact hp.enlarge_begins (hself ▸ ht)
      · exact hp.begins (hother hm ▸ ht)
    · have hhead : rule.rhs.head? ≠ some (.nonterminal n) := by
        intro hhead
        apply hnot
        by_cases hmem : rule.lhs ∈ rest
        · exact List.mem_append_left _ hmem
        · refine List.mem_append_right rest (List.mem_filter.mpr
            ⟨mem_dependents.mpr ⟨rule, hrule, hhead, rfl⟩, by simpa using hmem⟩)
      rw [ofRule_set hhead] at ht
      by_cases hlhs : rule.lhs = n
      · rw [hlhs, hself]
        exact mem_enlarge.mpr (.inr ⟨rule, hrule, hlhs, ht⟩)
      · rw [hother hlhs]
        refine hp.stable rule hrule ?_ t ht
        rw [hpending]
        intro hmem
        rcases List.mem_cons.mp hmem with heq | hmem
        · exact hlhs heq
        · exact hnot (List.mem_append_left _ hmem)

/-! Every visit takes weight off the search: growing a set by a terminal weighs
as much as all the nonterminals that it can make pending. -/

theorem Sound.size_le (hp : p.Sound g) (hg : g.WellFormed) {set : TerminalSet}
    (hset : set ∈ p.sets) : set.size ≤ g.terminals.length := by
  obtain ⟨n, hn, rfl⟩ := List.mem_iff_getElem.mp hset
  refine List.Nodup.length_le_of_subset (OrderedSet.nodup _) fun t ht => ?_
  refine (hp.begins (n := n) ?_).mem_terminals hg
    (Vocabulary.nonterminal_mem_symbols.mpr (hp.length_sets ▸ hn))
  rwa [List.getD_eq_getElem?_getD, List.getElem?_eq_getElem hn]

theorem Sound.total_le (hp : p.Sound g) (hg : g.WellFormed) :
    total p.sets ≤ g.nonterminals.length * g.terminals.length := by
  rw [← hp.length_sets]
  exact First.total_le fun set hset => hp.size_le hg hset

def weight (g : Grammar) (p : Progress) : Nat :=
  p.pending.length + g.nonterminals.length *
    (g.nonterminals.length * g.terminals.length - total p.sets)

theorem length_dependents_le (hg : g.WellFormed) (n : Nat) :
    (dependents g.rules n).length ≤ g.nonterminals.length := by
  rw [← List.length_range (n := g.nonterminals.length)]
  refine List.Nodup.length_le_of_subset (OrderedSet.nodup _) fun m hm => ?_
  obtain ⟨rule, hrule, _, rfl⟩ := mem_dependents.mp hm
  obtain ⟨id, hid, rfl⟩ := Grammar.exists_rule_of_mem hrule
  exact List.mem_range.mpr (hg.lhs_lt (Grammar.mem_rulesOf.mp hid).1)

theorem Sound.weight_visit_lt (hp : p.Sound g) {n : Nat} {rest : List Nat}
    (hpending : p.pending = n :: rest) (hg : g.WellFormed) :
    (p.visit g.rules n rest).weight g < p.weight g := by
  have hvisit := (hp.visit hpending hg).total_le hg
  have hn : n < p.sets.length := by
    rw [hp.length_sets]
    exact hp.pending_lt n (by rw [hpending]; exact List.mem_cons_self)
  unfold Progress.visit at hvisit ⊢
  dsimp only at hvisit ⊢
  split at hvisit
  next hsize =>
    rw [if_pos hsize]
    simp only [weight, hpending, List.length_cons]
    omega
  next hsize =>
    rw [if_neg hsize]
    have hgrows : (p.sets.getD n .empty).size ≤ (enlarge g.rules p.sets n).size :=
      OrderedSet.size_le_of_subset fun t ht => mem_enlarge.mpr (.inl ht)
    have htotal := total_set hn (enlarge g.rules p.sets n)
    have hfresh : ((dependents g.rules n).filter (!rest.contains ·)).length ≤
        g.nonterminals.length :=
      Nat.le_trans (List.length_filter_le _ _) (length_dependents_le hg n)
    simp only [weight, hpending, List.length_append, List.length_cons]
    have hslack : g.nonterminals.length * (g.nonterminals.length * g.terminals.length -
        total (p.sets.set n (enlarge g.rules p.sets n))) + g.nonterminals.length ≤
          g.nonterminals.length *
            (g.nonterminals.length * g.terminals.length - total p.sets) := by
      rw [← Nat.mul_succ]
      exact Nat.mul_le_mul_left _ (by dsimp only at hvisit; omega)
    omega

theorem Sound.run (hp : p.Sound g) (hg : g.WellFormed) (budget : Nat) :
    (p.run g.rules budget).Sound g := by
  induction budget generalizing p with
  | zero => exact hp
  | succ budget ih =>
      unfold Progress.run
      split
      · exact hp
      next n rest hpending => exact ih (hp.visit hpending hg)

theorem Sound.pending_run (hp : p.Sound g) (hg : g.WellFormed) {budget : Nat}
    (hbudget : p.weight g ≤ budget) : (p.run g.rules budget).pending = [] := by
  induction budget generalizing p with
  | zero =>
      have hlength : p.pending.length = 0 := by
        unfold weight at hbudget
        omega
      exact List.length_eq_zero_iff.mp hlength
  | succ budget ih =>
      unfold Progress.run
      split
      next hpending => exact hpending
      next n rest hpending =>
        have := hp.weight_visit_lt hpending hg
        exact ih (hp.visit hpending hg) (by omega)

end Progress

theorem fixpoint_sound {g : Grammar} (hg : g.WellFormed) :
    (fixpoint g.toVocabulary g.rules).Sound g :=
  (Progress.start_sound hg).run hg _

theorem weight_start_le (g : Grammar) :
    (Progress.start g.nonterminals.length).weight g ≤ visitBound g.toVocabulary := by
  have hslack : g.nonterminals.length * g.terminals.length -
      total (Progress.start g.nonterminals.length).sets ≤
        g.nonterminals.length * g.terminals.length := Nat.sub_le _ _
  have := Nat.mul_le_mul_left g.nonterminals.length hslack
  simp only [Progress.weight, visitBound, Progress.start, List.length_range] at this ⊢
  rw [Nat.mul_assoc]
  omega

theorem fixpoint_pending {g : Grammar} (hg : g.WellFormed) :
    (fixpoint g.toVocabulary g.rules).pending = [] :=
  (Progress.start_sound hg).pending_run hg (weight_start_le g)

end First

namespace Grammar

theorem mem_first_iff {g : Grammar} (hg : g.WellFormed) {n : Nat} {t : Terminal} :
    t ∈ g.first n ↔ g.Begins (.nonterminal n) t := by
  have hsound := First.fixpoint_sound hg
  have hpending := First.fixpoint_pending hg
  rw [first, hg.firstSets_eq]
  refine ⟨hsound.begins, fun h => ?_⟩
  generalize hsymbol : Symbol.nonterminal n = symbol at h
  induction h generalizing n with
  | terminal t => cases hsymbol
  | @rule m id symbol rest t hid hrhs _ ih =>
      cases hsymbol
      obtain ⟨hlt, rfl⟩ := mem_rulesOf.mp hid
      refine hsound.stable _ (rule_mem hlt) (by simp [hpending]) t ?_
      unfold First.ofRule
      rw [hrhs]
      cases symbol with
      | terminal other =>
          rename_i hbegins
          cases hbegins
          exact OrderedSet.mem_singleton.mpr rfl
      | nonterminal m => exact ih rfl

theorem mem_firstOfSymbol_iff {g : Grammar} (hg : g.WellFormed) {symbol : Symbol}
    {t : Terminal} : t ∈ g.firstOfSymbol symbol ↔ g.Begins symbol t := by
  cases symbol with
  | nonterminal n => exact mem_first_iff hg
  | terminal other =>
      rw [firstOfSymbol_terminal, OrderedSet.mem_singleton]
      constructor
      · rintro rfl
        exact .terminal t
      · intro h
        cases h
        rfl

end Grammar
end CanonicalLR
