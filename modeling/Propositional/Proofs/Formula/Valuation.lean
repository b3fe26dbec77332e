import Propositional.Proofs.Formula.Meaning

/-!
# Assignments as valuations

An assignment is read as a function from variables to truth values that is
false where nothing is given. A formula has a value under the assignment when
all its variables are given one, and it is then the value under that function.
A formula is constantly a truth value when it has that value under every
assignment of its variables; this is the same as having it under all functions.
-/

set_option autoImplicit false

namespace Propositional

namespace Variable

def p : Variable := ⟨"p", by decide⟩

def q : Variable := ⟨"q", by decide⟩

def r : Variable := ⟨"r", by decide⟩

end Variable

namespace Assignment

def value (e : Assignment) (v : Variable) : Bool := (e.get? v).getD false

def Covers (e : Assignment) (vars : SortedSet Variable) : Prop :=
  ∀ v ∈ vars, (e.get? v).isSome = true

def Over (e : Assignment) (vars : SortedSet Variable) : Prop :=
  ∀ v, (e.get? v).isSome = true ↔ v ∈ vars

instance (e : Assignment) (vars : SortedSet Variable) : Decidable (e.Covers vars) :=
  inferInstanceAs (Decidable (∀ v ∈ vars, (e.get? v).isSome = true))

theorem Covers.mono {e : Assignment} {s t : SortedSet Variable} (h : e.Covers t)
    (hst : s ⊆ t) : e.Covers s := fun v hv => h v (hst v hv)

theorem Over.covers {e : Assignment} {vars : SortedSet Variable} (h : e.Over vars) :
    e.Covers vars := fun v hv => (h v).mpr hv

theorem get?_eq_some_iff {e : Assignment} {v : Variable} {b : Bool} :
    e.get? v = some b ↔ (e.get? v).isSome = true ∧ e.value v = b := by
  rw [value]
  cases e.get? v <;> simp

def tabulate (vars : SortedSet Variable) (value : Variable → Bool) : Assignment :=
  ofList (vars.toList.map fun v => (v, value v))

theorem get?_foldl_set (value : Variable → Bool) (l : List Variable) (e : Assignment)
    (v : Variable) :
    ((l.map fun w => (w, value w)).foldl (fun e p => e.set p.1 p.2) e).get? v =
      if v ∈ l then some (value v) else e.get? v := by
  induction l generalizing e with
  | nil => simp
  | cons w l ih =>
    rw [List.map_cons, List.foldl_cons, ih]
    by_cases hl : v ∈ l
    · simp [hl]
    · by_cases hw : w = v
      · simp [hl, hw, get?_set]
      · simp [hl, hw, Ne.symm hw, get?_set]

theorem get?_tabulate (vars : SortedSet Variable) (value : Variable → Bool) (v : Variable) :
    (tabulate vars value).get? v = if v ∈ vars then some (value v) else none :=
  get?_foldl_set value vars.toList ∅ v

theorem tabulate_over (vars : SortedSet Variable) (value : Variable → Bool) :
    (tabulate vars value).Over vars := by
  intro v
  rw [get?_tabulate]
  by_cases h : v ∈ vars <;> simp [h]

theorem value_tabulate {vars : SortedSet Variable} {value : Variable → Bool} {v : Variable}
    (h : v ∈ vars) : (tabulate vars value).value v = value v := by
  rw [Assignment.value, get?_tabulate, if_pos h, Option.getD_some]

end Assignment

namespace Formula

theorem eval?_of_covers {f : Formula} {env : Assignment} (h : env.Covers f.vars) :
    f.eval? env = some (f.eval env.value) := by
  induction f with
  | const b => rfl
  | var v => exact Assignment.get?_eq_some_iff.mpr ⟨h v (by simp [vars]), rfl⟩
  | not f ih => rw [eval?_not, ih h, Option.map_some, eval]
  | binary c l r ihl ihr =>
    have hl : env.Covers l.vars := h.mono fun v hv => by simp [vars, hv]
    have hr : env.Covers r.vars := h.mono fun v hv => by simp [vars, hv]
    rw [eval?_binary, ihl hl, ihr hr, Option.bind_some, Option.map_some, eval]

theorem covers_of_eval? {f : Formula} {env : Assignment} {b : Bool} (h : f.eval? env = some b) :
    env.Covers f.vars := by
  induction f generalizing b with
  | const a => simp [Assignment.Covers, vars]
  | var w =>
    intro v hv
    rw [vars, SortedSet.mem_singleton] at hv
    rw [hv]
    exact (Assignment.get?_eq_some_iff.mp h).1
  | not f ih =>
    obtain ⟨a, ha, -⟩ := Option.map_eq_some_iff.mp (eval?_not f env ▸ h)
    exact ih ha
  | binary c l r ihl ihr =>
    obtain ⟨a, ha, hrest⟩ := Option.bind_eq_some_iff.mp (eval?_binary c l r env ▸ h)
    obtain ⟨a', ha', -⟩ := Option.map_eq_some_iff.mp hrest
    intro v hv
    rw [vars, SortedSet.mem_union] at hv
    exact hv.elim (ihl ha v) (ihr ha' v)

theorem eval?_eq_some_iff {f : Formula} {env : Assignment} {b : Bool} :
    f.eval? env = some b ↔ env.Covers f.vars ∧ f.eval env.value = b := by
  constructor
  · intro h
    have hc := covers_of_eval? h
    rw [eval?_of_covers hc, Option.some.injEq] at h
    exact ⟨hc, h⟩
  · rintro ⟨hc, rfl⟩
    exact eval?_of_covers hc

def Constantly (f : Formula) (b : Bool) : Prop :=
  ∀ env : Assignment, env.Over f.vars → f.eval? env = some b

theorem constantly_iff {f : Formula} {b : Bool} :
    f.Constantly b ↔ ∀ value, f.eval value = b := by
  constructor
  · intro h value
    have hover := Assignment.tabulate_over f.vars value
    have heval := (eval?_eq_some_iff.mp (h _ hover)).2
    rw [← heval]
    exact eval_congr fun v hv => (Assignment.value_tabulate hv).symm
  · intro h env hover
    exact eval?_eq_some_iff.mpr ⟨hover.covers, h env.value⟩

end Formula

end Propositional
