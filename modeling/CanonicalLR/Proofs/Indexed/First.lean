import CanonicalLR.Proofs.Indexed.Catalog

namespace CanonicalLR.Indexed

/-! FIRST sets with a work list.  The nonterminals that depend on one another are kept in a
vector, and a vector of flags says which of them wait for a visit. -/

/-- Nonterminals with a rule that begins with the given one. -/
def dependentsOf (rules : List Rule) (n : Nat) : OrderedSet Nat :=
  .ofList ((rules.filter fun rule => rule.rhs.head? = some (.nonterminal n)).map Rule.lhs)

def dependents? (nonterminals : Nat) (rules : List Rule) : Option (List (OrderedSet Nat)) :=
  rules.foldlM
    (fun dependents rule =>
      match rule.rhs.head? with
      | some (.nonterminal n) => update? dependents n (·.insert rule.lhs)
      | _ => some dependents)
    (List.replicate nonterminals .empty)

structure Worklist where
  sets : List TerminalSet
  pending : List Nat
  /-- Whether a nonterminal is pending. -/
  queued : List Bool

/-- Adds to a set what a rule can begin with. -/
def addRule? (rules : List Rule) (sets : List TerminalSet) (set : TerminalSet) (id : Nat) :
    Option TerminalSet := do
  let rule ← rules[id]?
  match ← rule.rhs[0]? with
  | .terminal t => return set.insert t
  | .nonterminal n => do
      let other ← sets[n]?
      return set.union other

def enqueue? (waiting : List Nat × List Bool) (n : Nat) : Option (List Nat × List Bool) := do
  if ← waiting.2[n]? then return waiting
  else do
    let queued ← update? waiting.2 n fun _ => true
    return (waiting.1 ++ [n], queued)

def visit? (rules : List Rule) (rulesByLhs : List (List Nat))
    (dependents : List (OrderedSet Nat)) (w : Worklist) (n : Nat) (rest : List Nat) :
    Option Worklist := do
  let queued ← update? w.queued n fun _ => false
  let old ← w.sets[n]?
  let ids ← rulesByLhs[n]?
  let set ← ids.foldlM (addRule? rules w.sets) old
  if set.size = old.size then return ⟨w.sets, rest, queued⟩
  else do
    let sets ← update? w.sets n fun _ => set
    let next ← dependents[n]?
    let (pending, queued) ← next.toList.foldlM enqueue? (rest, queued)
    return ⟨sets, pending, queued⟩

/-- Visits pending nonterminals until none is left. -/
def visitAll? (rules : List Rule) (rulesByLhs : List (List Nat))
    (dependents : List (OrderedSet Nat)) : Nat → Worklist → Option Worklist
  | 0, w => if w.pending = [] then some w else none
  | budget + 1, w =>
      match w.pending with
      | [] => some w
      | n :: rest => do
          visitAll? rules rulesByLhs dependents budget
            (← visit? rules rulesByLhs dependents w n rest)

def firstSets? (v : Vocabulary) (rules : List Rule) (rulesByLhs : List (List Nat)) :
    Option (List TerminalSet) := do
  let count := v.nonterminals.length
  let dependents ← dependents? count rules
  let w ← visitAll? rules rulesByLhs dependents (First.visitBound v)
    ⟨List.replicate count .empty, List.range count, List.replicate count true⟩
  return w.sets

def flags (count : Nat) (pending : List Nat) : List Bool :=
  vector count fun n => decide (n ∈ pending)

/-- The work list for the progress that has been made. -/
def worklist (nonterminals : Nat) (p : First.Progress) : Worklist where
  sets := p.sets
  pending := p.pending
  queued := flags nonterminals p.pending

variable {g : Grammar} {p : First.Progress}

theorem dependentsOf_concat (rules : List Rule) (rule : Rule) (n : Nat) :
    dependentsOf (rules ++ [rule]) n =
      if rule.rhs.head? = some (.nonterminal n) then (dependentsOf rules n).insert rule.lhs
      else dependentsOf rules n := by
  unfold dependentsOf
  rw [List.filter_append, List.map_append, OrderedSet.ofList, List.foldl_append]
  split
  next h => simp [h, OrderedSet.ofList]
  next h => simp [h, OrderedSet.ofList]

theorem dependents?_eq (hg : g.WellFormed) :
    dependents? g.nonterminals.length g.rules =
      some (vector g.nonterminals.length (dependentsOf g.rules)) := by
  rw [dependents?, replicate_eq_vector]
  refine foldlM_eq_state (fun done => vector g.nonterminals.length (dependentsOf done)) ?_
  intro done rule rest hlist
  have hmem : rule ∈ g.rules := by
    rw [hlist]
    exact List.mem_append_right done List.mem_cons_self
  obtain ⟨id, hid, rfl⟩ := Grammar.exists_rule_of_mem hmem
  split
  next n hhead =>
    have hn : n < g.nonterminals.length := Vocabulary.nonterminal_mem_symbols.mp
      (hg.symbol_mem (Grammar.mem_rulesOf.mp hid).1 _ (List.mem_of_head? hhead))
    rw [update?_vector hn]
    refine congrArg some (vector_congr fun m _ => ?_)
    rw [dependentsOf_concat, hhead, Function.update_apply]
    by_cases hm : m = n
    · simp [hm]
    · simp [hm, Ne.symm hm]
  next hhead =>
    refine congrArg some (vector_congr fun m _ => ?_)
    rw [dependentsOf_concat, if_neg (hhead m)]

theorem update?_flags_cons {count n : Nat} {rest : List Nat} (hn : n < count)
    (hrest : n ∉ rest) :
    update? (flags count (n :: rest)) n (fun _ => false) = some (flags count rest) := by
  rw [flags, update?_vector hn]
  refine congrArg some (vector_congr fun m _ => ?_)
  rw [Function.update_apply]
  split
  next heq => simp [heq, hrest]
  next hne => simp [hne]

theorem update?_flags_concat {count n : Nat} {pending : List Nat} (hn : n < count) :
    update? (flags count pending) n (fun _ => true) = some (flags count (pending ++ [n])) := by
  rw [flags, update?_vector hn]
  refine congrArg some (vector_congr fun m _ => ?_)
  rw [Function.update_apply]
  split
  next heq => simp [heq]
  next hne => simp [hne]

theorem getElem?_sets (hp : p.Sound g) {n : Nat} (hn : n < g.nonterminals.length) :
    p.sets[n]? = some (p.sets.getD n .empty) := by
  rw [← hp.length_sets] at hn
  rw [List.getD_eq_getElem?_getD, List.getElem?_eq_getElem hn]
  rfl

/-- A rule has a first symbol, and the set of that symbol is there. -/
theorem addRule?_eq (hg : g.WellFormed) (hp : p.Sound g) {id : Nat} (hid : id < g.rules.length)
    (set : TerminalSet) :
    addRule? g.rules p.sets set id = some (set.union (First.ofRule p.sets (g.rule id))) := by
  obtain ⟨symbol, rest, hrhs⟩ := List.exists_cons_of_ne_nil (hg.rhs_ne_nil hid)
  have hsymbol := hg.symbol_mem hid symbol (hrhs ▸ List.mem_cons_self)
  rw [addRule?, Grammar.getElem?_rules hid, Option.bind_eq_bind, Option.bind_some, First.ofRule,
    hrhs]
  cases symbol with
  | terminal t => rfl
  | nonterminal n =>
      have hset := getElem?_sets hp (Vocabulary.nonterminal_mem_symbols.mp hsymbol)
      rw [List.getElem?_cons_zero, Option.bind_eq_bind, Option.bind_some]
      dsimp only
      rw [hset]
      rfl

theorem addRules_eq (hg : g.WellFormed) (hp : p.Sound g) (n : Nat) :
    (g.rulesOf n).foldlM (addRule? g.rules p.sets) (p.sets.getD n .empty) =
      some (First.enlarge g.rules p.sets n) := by
  rw [First.enlarge, ← Grammar.map_rule_rulesOf, List.foldl_map]
  exact foldlM_eq_some
    (fun id hid set => addRule?_eq hg hp (Grammar.mem_rulesOf.mp hid).1 set) _

/-- The nonterminals that wait once those in `done` have been put behind the others. -/
def waiting (rest done : List Nat) : List Nat :=
  rest ++ done.filter (!rest.contains ·)

theorem waiting_concat (rest done : List Nat) (n : Nat) :
    waiting rest (done ++ [n]) =
      if n ∈ rest then waiting rest done else waiting rest done ++ [n] := by
  unfold waiting
  rw [List.filter_append]
  split
  next h => simp [h]
  next h => simp [h]

theorem enqueueAll_eq {count : Nat} {rest next : List Nat} (hnodup : next.Nodup)
    (hnext : ∀ n ∈ next, n < count) :
    next.foldlM enqueue? (rest, flags count rest) =
      some (waiting rest next, flags count (waiting rest next)) := by
  have hstart : rest = waiting rest [] := (List.append_nil rest).symm
  conv_lhs => rw [hstart]
  refine foldlM_eq_state (fun done => (waiting rest done, flags count (waiting rest done))) ?_
  rintro done n others rfl
  have hn : n < count := hnext n (List.mem_append_right done List.mem_cons_self)
  have hnew : n ∉ done := fun hmem =>
    (List.nodup_append.mp hnodup).2.2 n hmem n List.mem_cons_self rfl
  have hwaits : n ∈ waiting rest done ↔ n ∈ rest := by simp [waiting, hnew]
  rw [enqueue?, waiting_concat]
  dsimp only
  rw [flags, getElem?_vector hn, ← flags, Option.bind_eq_bind, Option.bind_some]
  by_cases hmem : n ∈ rest
  · rw [if_pos (decide_eq_true (hwaits.mpr hmem)), if_pos hmem]
    rfl
  · rw [if_neg (by simpa [hwaits] using hmem), if_neg hmem, update?_flags_concat hn]
    rfl

theorem visit?_eq (hg : g.WellFormed) (hp : p.Sound g) {n : Nat} {rest : List Nat}
    (hpending : p.pending = n :: rest) (hnodup : p.pending.Nodup) :
    visit? g.rules g.catalog.rulesByLhs (vector g.nonterminals.length (dependentsOf g.rules))
        (worklist g.nonterminals.length p) n rest =
      some (worklist g.nonterminals.length (p.visit g.rules n rest)) := by
  have hn : n < g.nonterminals.length :=
    hp.pending_lt n (hpending ▸ List.mem_cons_self)
  rw [hpending] at hnodup
  have hrest := (List.nodup_cons.mp hnodup).1
  have hids : g.catalog.rulesByLhs[n]? = some (g.rulesOf n) := Grammar.rulesOf?_catalog hn
  rw [visit?, worklist, First.Progress.visit]
  dsimp only
  rw [hpending, update?_flags_cons hn hrest, getElem?_sets hp hn, hids]
  simp only [Option.bind_eq_bind, Option.bind_some, addRules_eq hg hp n]
  split
  · rfl
  · have hset : update? p.sets n (fun _ => First.enlarge g.rules p.sets n) =
        some (p.sets.set n (First.enlarge g.rules p.sets n)) := by
      rw [update?, getElem?_sets hp hn]
      rfl
    have hnext : ∀ m ∈ (dependentsOf g.rules n).toList, m < g.nonterminals.length := by
      intro m hm
      obtain ⟨rule, hrule, _, rfl⟩ := First.mem_dependents.mp hm
      obtain ⟨id, hid, rfl⟩ := Grammar.exists_rule_of_mem hrule
      exact hg.lhs_lt (Grammar.mem_rulesOf.mp hid).1
    rw [hset, getElem?_vector hn, Option.bind_some, Option.bind_some,
      enqueueAll_eq (OrderedSet.nodup _) hnext]
    rfl

theorem pending_visit_nodup {n : Nat} {rest : List Nat} (hnodup : (n :: rest).Nodup) :
    (p.visit g.rules n rest).pending.Nodup := by
  have hrest := (List.nodup_cons.mp hnodup).2
  unfold First.Progress.visit
  dsimp only
  split
  · exact hrest
  · refine List.nodup_append.mpr ⟨hrest, (OrderedSet.nodup _).filter _, ?_⟩
    rintro m hm _ hmem rfl
    have := (List.mem_filter.mp hmem).2
    simp [hm] at this

theorem visitAll?_eq (hg : g.WellFormed) {budget : Nat} (hp : p.Sound g)
    (hnodup : p.pending.Nodup) (hbudget : p.weight g ≤ budget) :
    visitAll? g.rules g.catalog.rulesByLhs (vector g.nonterminals.length (dependentsOf g.rules))
        budget (worklist g.nonterminals.length p) =
      some (worklist g.nonterminals.length (p.run g.rules budget)) := by
  induction budget generalizing p with
  | zero =>
      have hpending : p.pending = [] := hp.pending_run hg hbudget
      exact if_pos hpending
  | succ budget ih =>
      unfold visitAll? First.Progress.run
      cases hpending : p.pending with
      | nil => simp [worklist, hpending]
      | cons n rest =>
          have hlt := hp.weight_visit_lt hpending hg
          have hvisit := visit?_eq hg hp hpending hnodup
          rw [hpending] at hnodup
          simp only [worklist, hpending] at hvisit ⊢
          rw [hvisit]
          exact ih (hp.visit hpending hg) (pending_visit_nodup hnodup) (by omega)

/-- All nonterminals wait, and nothing is known of them. -/
def Worklist.start (nonterminals : Nat) : Worklist where
  sets := List.replicate nonterminals .empty
  pending := List.range nonterminals
  queued := List.replicate nonterminals true

theorem worklist_start (count : Nat) : worklist count (.start count) = .start count := by
  have hflags : flags count (List.range count) = List.replicate count true := by
    rw [replicate_eq_vector]
    exact vector_congr fun n hn => by simp [hn]
  rw [worklist, First.Progress.start, Worklist.start, hflags]

theorem firstSets?_eq (hg : g.WellFormed) :
    firstSets? g.toVocabulary g.rules g.catalog.rulesByLhs = some g.firstSets := by
  have hall := visitAll?_eq hg (First.Progress.start_sound hg) List.nodup_range
    (First.weight_start_le g)
  rw [worklist_start] at hall
  rw [firstSets?, dependents?_eq hg, hg.firstSets_eq]
  simp only [Option.bind_eq_bind, Option.bind_some]
  exact congrArg (Option.bind · fun w => some w.sets) hall

end CanonicalLR.Indexed
