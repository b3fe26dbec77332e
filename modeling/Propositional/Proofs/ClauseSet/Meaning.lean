import Propositional.ClauseSet.Evaluation
import Propositional.Proofs.Formula.Valuation

/-!
# The meaning of clause sets in both readings

One clause decides a set when all its literals have the absorbing value of the
reading: a refuted clause of a conjunction of disjunctions, a satisfied clause
of a disjunction of conjunctions. A set of clauses has the absorbing value
exactly when some clause decides it, so both readings are handled at once.
Under an assignment a set has a value when every variable in it is given one.
-/

set_option autoImplicit false

namespace Propositional

namespace Literal

theorem eval_negate (l : Literal) (value : Variable → Bool) :
    l.negate.eval value = !l.eval value := by
  cases h : l.negated <;> simp [eval, negate, h]

@[simp] theorem eval_positive (v : Variable) (value : Variable → Bool) :
    (positive v).eval value = value v := rfl

@[simp] theorem eval_negative (v : Variable) (value : Variable → Bool) :
    (negative v).eval value = !value v := rfl

theorem eval?_eq_some_iff {l : Literal} {env : Assignment} {b : Bool} :
    l.eval? env = some b ↔ (env.get? l.var).isSome = true ∧ l.eval env.value = b := by
  rw [eval?, eval, Assignment.value]
  cases env.get? l.var <;> simp

end Literal

namespace Reading

theorem eq_identity_or_absorbing (r : Reading) (b : Bool) :
    b = r.identity ∨ b = r.absorbing := by
  cases r <;> cases b <;> simp [absorbing, identity]

@[simp] theorem identity_ne_absorbing (r : Reading) : r.identity ≠ r.absorbing := by
  cases r <;> decide

theorem not_absorbing (r : Reading) : (!r.absorbing) = r.identity := Bool.not_not _

theorem not_eq_absorbing_iff {r : Reading} {b : Bool} :
    (!b) = r.absorbing ↔ b ≠ r.absorbing := by
  cases b <;> cases r.absorbing <;> simp

theorem inner_eval_eq_absorbing {r : Reading} {a b : Bool} :
    r.inner.eval a b = r.absorbing ↔ a = r.absorbing ∧ b = r.absorbing := by
  cases r <;> cases a <;> cases b <;> decide

theorem outer_eval_eq_absorbing {r : Reading} {a b : Bool} :
    r.outer.eval a b = r.absorbing ↔ a = r.absorbing ∨ b = r.absorbing := by
  cases r <;> cases a <;> cases b <;> decide

end Reading

/-- A fold over look-ups that all succeed is the fold over what they give. -/
theorem foldlM_map_eq_some {α : Type} {g : α → Option Bool} {p : α → Bool} {l : List α}
    (op : Bool → Bool → Bool) (h : ∀ x ∈ l, g x = some (p x)) (acc : Bool) :
    l.foldlM (fun acc x => (g x).map (op acc)) acc =
      some (l.foldl (fun acc x => op acc (p x)) acc) := by
  induction l generalizing acc with
  | nil => rfl
  | cons x l ih =>
    have hx := h x List.mem_cons_self
    have hl : ∀ y ∈ l, g y = some (p y) := fun y hy => h y (List.mem_cons_of_mem x hy)
    rw [List.foldlM_cons, hx, Option.map_some, List.foldl_cons]
    exact ih hl (op acc (p x))

theorem eq_some_of_foldlM_map {α : Type} {g : α → Option Bool} {l : List α}
    {op : Bool → Bool → Bool} {acc b : Bool}
    (h : l.foldlM (fun acc x => (g x).map (op acc)) acc = some b) :
    ∀ x ∈ l, ∃ a, g x = some a := by
  induction l generalizing acc with
  | nil => simp
  | cons y l ih =>
    rw [List.foldlM_cons] at h
    obtain ⟨a, ha, hrest⟩ := Option.bind_eq_some_iff.mp h
    obtain ⟨a', ha', -⟩ := Option.map_eq_some_iff.mp ha
    intro x hx
    rcases List.mem_cons.mp hx with rfl | hx
    · exact ⟨a', ha'⟩
    · exact ih hrest x hx

namespace Clause

def eval (c : Clause) (r : Reading) (value : Variable → Bool) : Bool :=
  c.toList.foldl (fun acc l => r.inner.eval acc (l.eval value)) r.absorbing

def Decides (c : Clause) (r : Reading) (value : Variable → Bool) : Prop :=
  ∀ l ∈ c, l.eval value = r.absorbing

instance (c : Clause) (r : Reading) (value : Variable → Bool) : Decidable (Decides c r value) :=
  inferInstanceAs (Decidable (∀ l ∈ c, l.eval value = r.absorbing))

theorem foldl_inner_eq_absorbing {α : Type} {r : Reading} {p : α → Bool} {l : List α}
    {acc : Bool} :
    l.foldl (fun acc x => r.inner.eval acc (p x)) acc = r.absorbing ↔
      acc = r.absorbing ∧ ∀ x ∈ l, p x = r.absorbing := by
  induction l generalizing acc with
  | nil => simp
  | cons x l ih => simp [ih, Reading.inner_eval_eq_absorbing, and_assoc]

theorem eval_eq_absorbing_iff {c : Clause} {r : Reading} {value : Variable → Bool} :
    eval c r value = r.absorbing ↔ Decides c r value := by
  rw [eval, foldl_inner_eq_absorbing, Decides]
  exact and_iff_right rfl

theorem Decides.mono {c d : Clause} {r : Reading} {value : Variable → Bool}
    (h : Decides d r value) (hcd : c ⊆ d) : Decides c r value :=
  fun l hl => h l (hcd l hl)

theorem decides_singleton {l : Literal} {r : Reading} {value : Variable → Bool} :
    Decides {l} r value ↔ l.eval value = r.absorbing := by
  simp [Decides]

theorem decides_insert {c : Clause} {l : Literal} {r : Reading} {value : Variable → Bool} :
    Decides (insert l c) r value ↔ l.eval value = r.absorbing ∧ Decides c r value := by
  simp [Decides]

end Clause

namespace ClauseSet

def eval (s : ClauseSet) (r : Reading) (value : Variable → Bool) : Bool :=
  match s with
  | const b => b
  | clauses cs =>
    cs.toList.foldl (fun acc c => r.outer.eval acc (Clause.eval c r value)) r.identity

def vars : ClauseSet → SortedSet Variable
  | const _ => ∅
  | clauses cs => SortedSet.ofList (cs.toList.flatMap fun c => c.toList.map Literal.var)

theorem mem_vars_clauses {cs : SortedSet Clause} {v : Variable} :
    v ∈ (clauses cs).vars ↔ ∃ c ∈ cs, ∃ l ∈ c, l.var = v := by
  rw [vars, SortedSet.mem_ofList, List.mem_flatMap]
  simp [SortedSet.mem_def]

theorem mem_vars_union {cs ds : SortedSet Clause} {v : Variable} :
    v ∈ (clauses (cs ∪ ds)).vars ↔ v ∈ (clauses cs).vars ∨ v ∈ (clauses ds).vars := by
  simp only [mem_vars_clauses, SortedSet.mem_union, or_and_right, exists_or]

def Decided (cs : SortedSet Clause) (r : Reading) (value : Variable → Bool) : Prop :=
  ∃ c ∈ cs, Clause.Decides c r value

instance (cs : SortedSet Clause) (r : Reading) (value : Variable → Bool) :
    Decidable (Decided cs r value) :=
  inferInstanceAs (Decidable (∃ c ∈ cs, Clause.Decides c r value))

@[simp] theorem not_decided_empty (r : Reading) (value : Variable → Bool) :
    ¬Decided ∅ r value := by
  simp [Decided]

@[simp] theorem decided_unit {l : Literal} {r : Reading} {value : Variable → Bool} :
    Decided {{l}} r value ↔ l.eval value = r.absorbing := by
  simp [Decided, Clause.decides_singleton]

theorem decided_union {cs ds : SortedSet Clause} {r : Reading} {value : Variable → Bool} :
    Decided (cs ∪ ds) r value ↔ Decided cs r value ∨ Decided ds r value := by
  simp only [Decided, SortedSet.mem_union, or_and_right, exists_or]

theorem foldl_outer_eq_absorbing {α : Type} {r : Reading} {p : α → Bool} {l : List α}
    {acc : Bool} :
    l.foldl (fun acc x => r.outer.eval acc (p x)) acc = r.absorbing ↔
      acc = r.absorbing ∨ ∃ x ∈ l, p x = r.absorbing := by
  induction l generalizing acc with
  | nil => simp
  | cons x l ih => simp [ih, Reading.outer_eval_eq_absorbing, or_assoc]

theorem eval_clauses_eq_absorbing_iff {cs : SortedSet Clause} {r : Reading}
    {value : Variable → Bool} :
    (clauses cs).eval r value = r.absorbing ↔ Decided cs r value := by
  rw [eval, foldl_outer_eq_absorbing, Decided, or_iff_right r.identity_ne_absorbing]
  exact exists_congr fun c => and_congr_right fun _ => Clause.eval_eq_absorbing_iff

/-- A value of a reading is known from when it is the absorbing one. -/
theorem eval_clauses_eq_of_decided_iff {cs : SortedSet Clause} {r : Reading} {b : Bool}
    {value : Variable → Bool} (h : Decided cs r value ↔ b = r.absorbing) :
    (clauses cs).eval r value = b := by
  rw [← eval_clauses_eq_absorbing_iff] at h
  cases hb : r.absorbing <;> cases b <;> cases heval : (clauses cs).eval r value <;> simp_all

theorem eval?_of_covers {s : ClauseSet} {r : Reading} {env : Assignment}
    (h : env.Covers s.vars) : s.eval? r env = some (s.eval r env.value) := by
  cases s with
  | const b => rfl
  | clauses cs =>
    have hclause : ∀ c ∈ cs.toList, Clause.eval? c r env = some (Clause.eval c r env.value) := by
      intro c hc
      apply foldlM_map_eq_some
      intro l hl
      have hv : l.var ∈ (clauses cs).vars := mem_vars_clauses.mpr ⟨c, hc, l, hl, rfl⟩
      exact Literal.eval?_eq_some_iff.mpr ⟨h _ hv, rfl⟩
    exact foldlM_map_eq_some _ hclause _

theorem covers_of_eval? {s : ClauseSet} {r : Reading} {env : Assignment} {b : Bool}
    (h : s.eval? r env = some b) : env.Covers s.vars := by
  cases s with
  | const a => simp [Assignment.Covers, vars]
  | clauses cs =>
    intro v hv
    obtain ⟨c, hc, l, hl, rfl⟩ := mem_vars_clauses.mp hv
    obtain ⟨a, ha⟩ := eq_some_of_foldlM_map h c hc
    obtain ⟨a', ha'⟩ := eq_some_of_foldlM_map ha l hl
    exact (Literal.eval?_eq_some_iff.mp ha').1

theorem eval?_eq_some_iff {s : ClauseSet} {r : Reading} {env : Assignment} {b : Bool} :
    s.eval? r env = some b ↔ env.Covers s.vars ∧ s.eval r env.value = b := by
  constructor
  · intro h
    have hc := covers_of_eval? h
    rw [eval?_of_covers hc, Option.some.injEq] at h
    exact ⟨hc, h⟩
  · rintro ⟨hc, rfl⟩
    exact eval?_of_covers hc

end ClauseSet

end Propositional
