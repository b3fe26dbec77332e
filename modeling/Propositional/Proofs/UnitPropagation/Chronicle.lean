import Propositional.Log
import Propositional.Proofs.UnitPropagation.Growth

/-!
# What the log of propagation tells of its rounds

A run is followed through the sets that its rounds begin with: each of them but
the last is changed by its round, and every round reports one event, which is
read off its set alone. The log is the list of these events. So its length is
bounded as the rounds are, its numbers join from one event to the next, and the
reason of a collapse is found again in the set of that round.
-/

set_option autoImplicit false

namespace Propositional

namespace Event

def round? : Event → Option Nat
  | opened .. => none
  | pivot .. => none
  | converted .. => none
  | absorbed round .. => some round
  | collapsed round .. => some round

end Event

namespace Literal

theorem compare_positive (v w : Variable) :
    compare (positive v) (positive w) = compare v w := by
  change (compare v w).then .eq = compare v w
  cases compare v w <;> rfl

theorem compare_negative_positive (v : Variable) : compare (negative v) (positive v) = .gt := by
  change (compare v v).then .gt = .gt
  rw [Std.compare_self]
  rfl

end Literal

namespace UnitPropagation

variable {cs ds : SortedSet Clause} {fallback recursive : Bool}

def Opposed (cs : SortedSet Clause) (v : Variable) : Prop :=
  {.positive v} ∈ cs ∧ {.negative v} ∈ cs

theorem not_opposed_of_consistent (h : Consistent (units cs)) (v : Variable) : ¬Opposed cs v := by
  rintro ⟨hp, hn⟩
  exact h (.positive v) (mem_units.mpr hp) (mem_units.mpr hn)

theorem clash?_least {forced : SortedSet Literal} {l k : Literal} (h : clash? forced = some l)
    (hk : k ∈ forced) (hn : k.negate ∈ forced) : k = l ∨ compare l k = .lt := by
  obtain ⟨-, before, after, hlist, hbefore⟩ := List.find?_eq_some_iff_append.mp h
  have hsorted := forced.sorted
  rw [hlist] at hsorted
  have hmem : k ∈ before ++ l :: after := hlist ▸ hk
  rcases List.mem_append.mp hmem with hk | hk
  · have := hbefore k hk
    simp [mem_opposites.mpr hn] at this
  · rcases List.mem_cons.mp hk with hk | hk
    · exact .inl hk
    · exact .inr ((List.pairwise_cons.mp (List.pairwise_append.mp hsorted).2.1).1 k hk)

/-- The literal of a contradiction is the positive one of the first variable
with both literals among the units. -/
theorem opposed_of_clash? {l : Literal} (h : clash? (units cs) = some l) :
    ∃ v, l = .positive v ∧ Opposed cs v ∧ ∀ w, Opposed cs w → compare v w ≠ .gt := by
  obtain ⟨hl, hn⟩ := clash?_eq_some h
  obtain ⟨v, negated⟩ := l
  cases negated with
  | true =>
    rcases clash?_least h hn hl with hpos | hlt
    · exact absurd hpos (Literal.negate_ne _)
    · exact absurd ((Literal.compare_negative_positive v).symm.trans hlt) (by decide)
  | false =>
    refine ⟨v, rfl, ⟨mem_units.mp hl, mem_units.mp hn⟩, ?_⟩
    rintro w ⟨hp, hn'⟩
    rcases clash?_least h (mem_units.mpr hp) (mem_units.mpr hn') with hw | hlt
    · obtain rfl : w = v := congrArg Literal.var hw
      rw [Std.compare_self]
      decide
    · rw [← Literal.compare_positive]
      exact fun hgt => absurd (hlt.symm.trans hgt) (by decide)

def event (fallback : Bool) (k : Nat) (cs : SortedSet Clause) : Event :=
  match round cs with
  | .error reason => .collapsed k reason fallback
  | .ok ds => .absorbed k cs.size ds.size

def outcome (fallback : Bool) (cs : SortedSet Clause) : ClauseSet :=
  match round cs with
  | .error _ => .const fallback
  | .ok ds => .clauses ds

theorem round?_event (k : Nat) (cs : SortedSet Clause) : (event fallback k cs).round? = some k := by
  rw [event]
  split <;> rfl

theorem event_of_error {reason : Collapse} (h : round cs = .error reason) (k : Nat) :
    event fallback k cs = .collapsed k reason fallback := by
  rw [event, h]

theorem event_of_ok (h : round cs = .ok ds) (k : Nat) :
    event fallback k cs = .absorbed k cs.size ds.size := by
  rw [event, h]

theorem event_eq_absorbed {k j before after : Nat}
    (h : event fallback k cs = .absorbed j before after) :
    j = k ∧ before = cs.size ∧ ∃ ds, round cs = .ok ds ∧ after = ds.size := by
  cases hround : round cs with
  | error reason =>
    rw [event_of_error hround] at h
    cases h
  | ok ds =>
    rw [event_of_ok hround] at h
    cases h
    exact ⟨rfl, rfl, ds, rfl, rfl⟩

theorem event_eq_collapsed {k j : Nat} {reason : Collapse} {b : Bool}
    (h : event fallback k cs = .collapsed j reason b) :
    j = k ∧ b = fallback ∧ round cs = .error reason := by
  cases hround : round cs with
  | error reason =>
    rw [event_of_error hround] at h
    cases h
    exact ⟨rfl, rfl, rfl⟩
  | ok ds =>
    rw [event_of_ok hround] at h
    cases h

structure Course (cs : SortedSet Clause) (fallback recursive : Bool) (run : Run) (n : Nat)
    (last : SortedSet Clause) : Prop where
  stage_last : stage cs n = some last
  changes : ∀ k < n, Changes cs k
  once : recursive = false → n = 0
  stable : recursive = true → ∀ ds, round last = .ok ds → ds = last
  length_events : ∀ first, (run.events fallback first).length = n + 1
  getElem?_events : ∀ first, ∀ k ≤ n,
    (run.events fallback first)[k]? = (stage cs k).map (event fallback (first + k))
  result_eq : run.result fallback = outcome fallback last

/-- A run of one round. -/
theorem Course.single {run : Run} (hstable : recursive = true → ∀ ds, round cs = .ok ds → ds = cs)
    (hevents : ∀ first, run.events fallback first = [event fallback first cs])
    (hresult : run.result fallback = outcome fallback cs) :
    Course cs fallback recursive run 0 cs where
  stage_last := rfl
  changes k hk := absurd hk (Nat.not_lt_zero k)
  once _ := rfl
  stable := hstable
  length_events first := by rw [hevents, List.length_singleton]
  getElem?_events first k hk := by
    obtain rfl : k = 0 := Nat.le_zero.mp hk
    rw [hevents]
    rfl
  result_eq := hresult

/-- A round that changes the set before a run. -/
theorem Course.cons {rest : Run} {n : Nat} {last : SortedSet Clause} (hround : round cs = .ok ds)
    (hne : ds ≠ cs) (hrec : recursive = true) (h : Course ds fallback recursive rest n last) :
    Course cs fallback recursive (.absorbed cs ds rest) (n + 1) last where
  stage_last := (stage_of_round hround n).trans h.stage_last
  changes k hk := by
    cases k with
    | zero => exact ⟨cs, ds, rfl, hround, hne⟩
    | succ k => exact (changes_succ hround).mpr (h.changes k (Nat.lt_of_succ_lt_succ hk))
  once hfalse := absurd (hrec.symm.trans hfalse) (by decide)
  stable := h.stable
  length_events first := by rw [Run.events, List.length_cons, h.length_events]
  getElem?_events first k hk := by
    rw [Run.events]
    cases k with
    | zero => exact congrArg some (event_of_ok hround first).symm
    | succ k =>
      rw [List.getElem?_cons_succ, h.getElem?_events (first + 1) k (Nat.le_of_succ_le_succ hk),
        stage_of_round hround, Nat.add_right_comm, Nat.add_assoc]
  result_eq := h.result_eq

theorem exists_course (fallback recursive : Bool) (cs : SortedSet Clause) :
    ∃ n last, Course cs fallback recursive (run recursive cs) n last := by
  apply run_induction
    (motive := fun cs run => ∃ n last, Course cs fallback recursive run n last)
  · intro cs reason hround
    refine ⟨0, cs, .single ?_ (fun first => ?_) ?_⟩
    · intro _ ds hok
      cases hround.symm.trans hok
    · rw [Run.events, event_of_error hround]
    · rw [Run.result, outcome, hround]
  · intro cs ds hround hstop
    refine ⟨0, cs, .single ?_ (fun first => ?_) ?_⟩
    · intro hrec es hok
      cases hround.symm.trans hok
      exact hstop.resolve_left (by simp [hrec])
    · rw [Run.events, event_of_ok hround]
    · rw [Run.result, outcome, hround]
  · rintro cs ds hround hrec hne ⟨n, last, ih⟩
    exact ⟨n + 1, last, ih.cons hround hne hrec⟩

namespace Course

variable {run : Run} {n : Nat} {last : SortedSet Clause}

/-- The event at a place of the log is that of the set which the round of this
number begins with. -/
theorem getElem?_eq_some (h : Course cs fallback recursive run n last) {k : Nat} {e : Event}
    (he : (run.events fallback 0)[k]? = some e) :
    ∃ ds, stage cs k = some ds ∧ event fallback k ds = e := by
  have hk : k ≤ n := by
    obtain ⟨hlt, -⟩ := List.getElem?_eq_some_iff.mp he
    rw [h.length_events] at hlt
    exact Nat.le_of_lt_succ hlt
  rw [h.getElem?_events 0 k hk, Option.map_eq_some_iff, Nat.zero_add] at he
  exact he

theorem of_mem (h : Course cs fallback recursive run n last) {e : Event}
    (he : e ∈ run.events fallback 0) : ∃ k ds, stage cs k = some ds ∧ event fallback k ds = e := by
  obtain ⟨k, hk⟩ := List.mem_iff_getElem?.mp he
  exact ⟨k, h.getElem?_eq_some hk⟩

theorem getLast?_eq (h : Course cs fallback recursive run n last) :
    (run.events fallback 0).getLast? = some (event fallback n last) := by
  rw [List.getLast?_eq_getElem?, h.length_events, Nat.add_sub_cancel,
    h.getElem?_events 0 n (Nat.le_refl n), h.stage_last, Option.map_some, Nat.zero_add]

theorem map_round? (h : Course cs fallback recursive run n last) :
    (run.events fallback 0).map Event.round? =
      (List.range (run.events fallback 0).length).map some := by
  apply List.ext_getElem (by simp)
  intro k hk _
  rw [List.length_map] at hk
  obtain ⟨ds, -, hds⟩ := h.getElem?_eq_some (List.getElem?_eq_getElem hk)
  rw [List.getElem_map, List.getElem_map, List.getElem_range, ← hds, round?_event]

theorem absorbed_of_lt (h : Course cs fallback recursive run n last) {k : Nat} (hk : k < n) :
    ∃ before after, (run.events fallback 0)[k]? = some (.absorbed k before after) := by
  obtain ⟨ds, es, hds, hround, -⟩ := h.changes k hk
  refine ⟨ds.size, es.size, ?_⟩
  rw [h.getElem?_events 0 k (Nat.le_of_lt hk), hds, Option.map_some, Nat.zero_add,
    event_of_ok hround]

end Course

structure Chronicle (cs : SortedSet Clause) (fallback recursive : Bool) (log : List Event)
    (result : ClauseSet) : Prop where
  ne_nil : log ≠ []
  numbered : log.map Event.round? = (List.range log.length).map some
  length_le : log.length ≤ (ClauseSet.clauses cs).vars.size + 1
  once : recursive = false → log.length = 1
  absorbed : ∀ k, k + 1 < log.length →
    ∃ before after, log[k]? = some (.absorbed k before after)
  before_first : ∀ k before after, log[0]? = some (.absorbed k before after) → before = cs.size
  before_next : ∀ k i before after j before' after', log[k]? = some (.absorbed i before after) →
    log[k + 1]? = some (.absorbed j before' after') → before' = after
  after_le : ∀ k before after, .absorbed k before after ∈ log → 1 ≤ after ∧ after ≤ before
  collapsed_iff : (∃ k reason b, log.getLast? = some (.collapsed k reason b)) ↔
    result = .const fallback
  collapsed_value : ∀ k reason b, .collapsed k reason b ∈ log → b = fallback
  after_last : ∀ k before after, log.getLast? = some (.absorbed k before after) →
    ∃ ds, result = .clauses ds ∧ after = ds.size ∧ (recursive = true → stage cs k = some ds)
  no_clauses : ∀ k b, .collapsed k .noClauses b ∈ log → k = 0 ∧ cs = ∅
  contradiction : ∀ k l b, .collapsed k (.contradiction l) b ∈ log →
    ∃ ds v, stage cs k = some ds ∧ l = .positive v ∧
      (Collapse.contradiction l).text =
        "both " ++ v.name ++ " and " ++ ("¬" ++ v.name) ++ " are forced" ∧
      Opposed ds v ∧ ∀ w, Opposed ds w → compare v w ≠ .gt
  emptied_clause : ∀ k b, .collapsed k .emptiedClause b ∈ log →
    ∃ ds, stage cs k = some ds ∧ ∀ v, ¬Opposed ds v

theorem stage_ne_empty {k : Nat} (h : stage cs (k + 1) = some ds) : ds ≠ ∅ := by
  obtain ⟨es, -, hround⟩ := stage_succ_eq_some_iff.mp h
  exact ne_empty_of_round_eq_ok hround

theorem Course.chronicle {run : Run} {n : Nat} {last : SortedSet Clause}
    (h : Course cs fallback recursive run n last) :
    Chronicle cs fallback recursive (run.events fallback 0) (run.result fallback) where
  ne_nil hnil := by
    have hlen := h.length_events 0
    rw [hnil] at hlen
    cases hlen
  numbered := h.map_round?
  length_le := by
    rw [h.length_events]
    exact Nat.succ_le_succ (le_size_vars_of_changes h.changes)
  once hfalse := by rw [h.length_events, h.once hfalse]
  absorbed k hk := by
    rw [h.length_events] at hk
    exact h.absorbed_of_lt (Nat.lt_of_succ_lt_succ hk)
  before_first k before after he := by
    obtain ⟨ds, hds, hevent⟩ := h.getElem?_eq_some he
    cases hds
    exact (event_eq_absorbed hevent).2.1
  before_next k i before after j before' after' he hnext := by
    obtain ⟨ds, hds, hevent⟩ := h.getElem?_eq_some he
    obtain ⟨es, hes, hevent'⟩ := h.getElem?_eq_some hnext
    obtain ⟨-, -, es', hround, rfl⟩ := event_eq_absorbed hevent
    have hes' : stage cs (k + 1) = some es' := stage_succ_eq_some_iff.mpr ⟨ds, hds, hround⟩
    cases hes.symm.trans hes'
    exact (event_eq_absorbed hevent').2.1
  after_le k before after he := by
    obtain ⟨i, ds, -, hevent⟩ := h.of_mem he
    obtain ⟨-, rfl, es, hround, rfl⟩ := event_eq_absorbed hevent
    obtain ⟨c, hc⟩ := SortedSet.exists_mem_of_ne_empty (ne_empty_of_round_eq_ok hround)
    exact ⟨List.length_pos_of_mem hc, size_le_of_round hround⟩
  collapsed_iff := by
    rw [h.getLast?_eq, h.result_eq, outcome]
    cases hround : round last with
    | error reason => simp [event_of_error hround]
    | ok ds => simp [event_of_ok hround]
  collapsed_value k reason b he := by
    obtain ⟨j, ds, -, hevent⟩ := h.of_mem he
    exact (event_eq_collapsed hevent).2.1
  after_last k before after he := by
    rw [h.getLast?_eq, Option.some.injEq] at he
    obtain ⟨rfl, -, ds, hround, rfl⟩ := event_eq_absorbed he
    refine ⟨ds, by rw [h.result_eq, outcome, hround], rfl, fun hrec => ?_⟩
    rw [h.stable hrec ds hround, h.stage_last]
  no_clauses k b he := by
    obtain ⟨j, ds, hds, hevent⟩ := h.of_mem he
    obtain ⟨rfl, -, hround⟩ := event_eq_collapsed hevent
    have hempty : ds = ∅ := round_eq_noClauses_iff.mp hround
    cases k with
    | zero => exact ⟨rfl, (Option.some.inj hds).trans hempty⟩
    | succ k => exact absurd hempty (stage_ne_empty hds)
  contradiction k l b he := by
    obtain ⟨j, ds, hds, hevent⟩ := h.of_mem he
    obtain ⟨rfl, -, hround⟩ := event_eq_collapsed hevent
    rcases cause_of_round_eq_error hround with ⟨hl, -⟩ | ⟨l', hl, hclash⟩ | ⟨hl, -⟩
    · cases hl
    · cases hl
      obtain ⟨v, rfl, hopposed, hfirst⟩ := opposed_of_clash? hclash
      exact ⟨ds, v, hds, rfl, rfl, hopposed, hfirst⟩
    · cases hl
  emptied_clause k b he := by
    obtain ⟨j, ds, hds, hevent⟩ := h.of_mem he
    obtain ⟨rfl, -, hround⟩ := event_eq_collapsed hevent
    rcases cause_of_round_eq_error hround with ⟨hl, -⟩ | ⟨l, hl, -⟩ | ⟨-, hconsistent, -⟩
    · cases hl
    · cases hl
    · exact ⟨ds, hds, not_opposed_of_consistent hconsistent⟩

end UnitPropagation

namespace ClauseSet

open UnitPropagation

/-- Propagation in a truth value reports nothing. In a set of clauses it reports
its rounds: at most one more than the set has variables, each from the number of
clauses that the one before ended with, and at the end the collapse if the
result is the fallback and the number of clauses that are returned otherwise. -/
theorem optimizeLog_chronicles_rounds (fallback recursive : Bool) :
    (∀ b, (const b).optimizeLog fallback recursive = []) ∧
      ∀ cs, Chronicle cs fallback recursive ((clauses cs).optimizeLog fallback recursive)
        ((clauses cs).optimize fallback recursive) := by
  refine ⟨fun _ => rfl, fun cs => ?_⟩
  obtain ⟨n, last, h⟩ := exists_course fallback recursive cs
  exact h.chronicle

def lateContradiction : SortedSet Clause :=
  .ofList [{.positive .p}, .ofList [.negative .p, .positive .q],
    .ofList [.negative .p, .negative .q]]

theorem optimizeLog_chronicles_rounds_lateContradiction :
    (clauses lateContradiction).optimizeLog false true =
        [.absorbed 0 3 3, .collapsed 1 (.contradiction (.positive .q)) false] ∧
      (clauses lateContradiction).optimize false true = .const false ∧
      ∃ ds v, stage lateContradiction 1 = some ds ∧ Literal.positive .q = .positive v ∧
        Opposed ds v := by
  have hlog : (clauses lateContradiction).optimizeLog false true =
      [.absorbed 0 3 3, .collapsed 1 (.contradiction (.positive .q)) false] := by
    decide +kernel
  have hchronicle := (optimizeLog_chronicles_rounds false true).2 lateContradiction
  rw [hlog] at hchronicle
  refine ⟨hlog, hchronicle.collapsed_iff.mp ⟨1, _, false, rfl⟩, ?_⟩
  obtain ⟨ds, v, hds, hv, -, hopposed, -⟩ := hchronicle.contradiction 1 (.positive .q) false (by simp)
  exact ⟨ds, v, hds, hv, hopposed⟩

end ClauseSet

end Propositional
