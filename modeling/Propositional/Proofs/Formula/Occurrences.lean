import Propositional.Formula.Walk
import Propositional.Proofs.Formula.Canonical
import Propositional.Proofs.Formula.Valuation

/-!
# What reads the occurrences of a formula

The variables of a formula are asked for in five ways: the pivot is the first of
them, a variable is looked for among them, all of them are collected, and the
two evaluations look them up. Each reads one list, the occurrences from left to
right. A visitor that acts at occurrences acts along the list until it breaks
off, and an evaluation looks up the whole list, with whatever effect the
look-ups have, before it computes the value from the answers.
-/

set_option autoImplicit false

namespace Propositional.Formula

section Visitors

variable {m : Type → Type} [Monad m] {σ : Type}

def atOccurrences (act : σ → Variable → m σ) (s : σ) : Mark → m σ
  | .occurrence v => act s v
  | _ => pure s

theorem walk_atOccurrences [LawfulMonad m] (act : σ → Variable → m σ) (f : Formula) (s : σ) :
    f.walk (atOccurrences act) s = f.occurrences.foldlM act s := by
  induction f generalizing s with
  | const b => simp [walk, atOccurrences, occurrences]
  | var v => simp [walk, atOccurrences, occurrences]
  | not f ih => simp [walk, atOccurrences, occurrences, ih]
  | binary c l r ihl ihr => simp [walk, atOccurrences, occurrences, ihl, ihr]

end Visitors

def leftmost (_ : Unit) (v : Variable) : Except Variable Unit := .error v

def seek (v : Variable) (_ : Unit) (w : Variable) : Except Unit Unit :=
  if w = v then .error () else .ok ()

def collect (s : SortedSet Variable) (v : Variable) : Except Unit (SortedSet Variable) :=
  .ok (insert v s)

theorem walk_leftmost (f : Formula) :
    f.walk (atOccurrences leftmost) () = f.pivot.elim (.ok ()) .error := by
  rw [walk_atOccurrences, pivot_eq_head?]
  cases f.occurrences <;> rfl

theorem foldlM_seek (v : Variable) (vs : List Variable) :
    vs.foldlM (seek v) () = if v ∈ vs then .error () else .ok () := by
  induction vs with
  | nil => rfl
  | cons w vs ih =>
    rw [List.foldlM_cons]
    by_cases h : w = v
    · subst h
      simp [seek, bind, Except.bind]
    · simpa [seek, h, Ne.symm h, bind, Except.bind] using ih

theorem walk_seek (f : Formula) (v : Variable) :
    f.walk (atOccurrences (seek v)) () = if f.mentions v then .error () else .ok () := by
  rw [walk_atOccurrences, foldlM_seek]
  simp only [mentions_iff]

theorem foldlM_collect (vs : List Variable) (s : SortedSet Variable) :
    vs.foldlM collect s = .ok (SortedSet.ofList vs ∪ s) := by
  induction vs generalizing s with
  | nil => exact congrArg Except.ok (SortedSet.ext fun v => by simp)
  | cons w vs ih =>
    have hunion : SortedSet.ofList vs ∪ insert w s = SortedSet.ofList (w :: vs) ∪ s :=
      SortedSet.ext fun v => by simp [or_left_comm, or_assoc]
    rw [List.foldlM_cons, ← hunion]
    exact ih (insert w s)

theorem walk_collect (f : Formula) : f.walk (atOccurrences collect) ∅ = .ok f.vars := by
  have hvars : SortedSet.ofList f.occurrences ∪ ∅ = f.vars :=
    SortedSet.ext fun v => by simp [mem_vars]
  rw [walk_atOccurrences, foldlM_collect, hvars]

def evalFrom : Formula → List Bool → Bool
  | const b, _ => b
  | var _, answers => answers.headD false
  | not f, answers => !f.evalFrom answers
  | binary c l r, answers =>
    c.eval (l.evalFrom (answers.take l.occurrences.length))
      (r.evalFrom (answers.drop l.occurrences.length))

theorem evalFrom_binary_append {c : Connective} {l r : Formula} {as bs : List Bool}
    (h : as.length = l.occurrences.length) :
    (binary c l r).evalFrom (as ++ bs) = c.eval (l.evalFrom as) (r.evalFrom bs) := by
  rw [evalFrom, List.take_left' h, List.drop_left' h]

theorem evalFrom_map (value : Variable → Bool) (f : Formula) :
    f.evalFrom (f.occurrences.map value) = f.eval value := by
  induction f with
  | const b => rfl
  | var v => rfl
  | not f ih => exact congrArg (!·) ih
  | binary c l r ihl ihr =>
    rw [occurrences, List.map_append, evalFrom_binary_append (List.length_map ..), ihl, ihr, eval]

section Lookup

variable {m : Type → Type} [Monad m] [LawfulMonad m] {lookup : Variable → m Bool}

/-- After look-ups only lists with one answer for each of them matter. -/
theorem bind_mapM_congr {β : Type} {vs : List Variable} {g k : List Bool → m β}
    (h : ∀ answers, answers.length = vs.length → g answers = k answers) :
    vs.mapM lookup >>= g = vs.mapM lookup >>= k := by
  induction vs generalizing g k with
  | nil => simpa using h [] rfl
  | cons v vs ih =>
    simp only [List.mapM_cons, bind_assoc, pure_bind]
    congr 1
    funext b
    exact ih fun answers hlength => h (b :: answers) (by simp [hlength])

/-- An evaluation looks up all occurrences from the left, and only then computes. -/
theorem evalM_eq_mapM (lookup : Variable → m Bool) (f : Formula) :
    f.evalM lookup = f.occurrences.mapM lookup >>= fun answers => pure (f.evalFrom answers) := by
  induction f with
  | const b => simp [evalM, occurrences, evalFrom]
  | var v => simp [evalM, occurrences, evalFrom]
  | not f ih => simp [evalM, occurrences, evalFrom, ih]
  | binary c l r ihl ihr =>
    simp only [evalM, occurrences, ihl, ihr, List.mapM_append, bind_assoc, pure_bind]
    apply bind_mapM_congr
    intro as has
    simp only [evalFrom_binary_append has]

end Lookup

theorem run_mapM_ask (value : Variable → Bool) (vs asked : List Variable) :
    (vs.mapM (ask value)).run asked = (vs.map value, asked ++ vs) := by
  induction vs generalizing asked with
  | nil => rw [List.mapM_nil, List.map_nil, List.append_nil]; rfl
  | cons v vs ih =>
    have hstep : ((v :: vs).mapM (ask value)).run asked =
        (fun p => (value v :: p.1, p.2)) <$> (vs.mapM (ask value)).run (asked ++ [v]) := by
      simp [ask]
    rw [hstep, ih, List.append_assoc]
    rfl

theorem evalAsking_eq (value : Variable → Bool) (f : Formula) :
    f.evalAsking value = (f.eval value, f.occurrences) := by
  rw [evalAsking, evalM_eq_mapM, StateT.run_bind, run_mapM_ask, ← evalFrom_map]
  rfl

section Assignments

variable {f : Formula} {env : Assignment}

theorem eval?_eq_none_iff_exists :
    f.eval? env = none ↔ ∃ v ∈ f.occurrences, env.get? v = none := by
  constructor
  · intro h
    by_contra hall
    have hcovers : env.Covers f.vars := fun v hv =>
      Option.isSome_iff_ne_none.mpr fun hnone => hall ⟨v, mem_vars.mp hv, hnone⟩
    rw [eval?_of_covers hcovers] at h
    cases h
  · rintro ⟨v, hv, hnone⟩
    by_contra hne
    obtain ⟨b, hb⟩ := Option.ne_none_iff_exists'.mp hne
    have hsome := covers_of_eval? hb v (mem_vars.mpr hv)
    rw [hnone] at hsome
    cases hsome

theorem eval?_of_agrees {value : Variable → Bool}
    (h : ∀ v ∈ f.occurrences, env.get? v = some (value v)) :
    f.eval? env = some (f.eval value) := by
  have hagrees : ∀ v ∈ f.vars, (env.get? v).isSome = true ∧ env.value v = value v :=
    fun v hv => Assignment.get?_eq_some_iff.mp (h v (mem_vars.mp hv))
  have hcovers : env.Covers f.vars := fun v hv => (hagrees v hv).1
  rw [eval?_of_covers hcovers, eval_congr fun v hv => (hagrees v hv).2]

end Assignments

/-- The pivot is the first occurrence, the variables of a formula and those it
mentions are the members of the list, and the visitors that look for them find
the same. An evaluation asks for every occurrence in its place, whether the
value depends on it or not. Under an assignment it has no value if an occurrence
has none, and otherwise the value of every function that agrees with the
assignment. A canonical formula without a pivot is a constant. -/
theorem queries_read_occurrences (f : Formula) :
    (f.pivot = f.occurrences.head? ∧ (f.pivot = none ↔ f.occurrences = []) ∧
      f.walk (atOccurrences leftmost) () = f.pivot.elim (.ok ()) .error) ∧
    ((∀ v, v ∈ f.vars ↔ v ∈ f.occurrences) ∧
      f.walk (atOccurrences collect) ∅ = .ok f.vars) ∧
    (∀ v, (f.mentions v = true ↔ v ∈ f.occurrences) ∧
      f.walk (atOccurrences (seek v)) () = if f.mentions v then .error () else .ok ()) ∧
    (∀ value, f.evalAsking value = (f.eval value, f.occurrences)) ∧
    (∀ (m : Type → Type) [Monad m] [LawfulMonad m] (lookup : Variable → m Bool),
      f.evalM lookup = f.occurrences.mapM lookup >>= fun answers => pure (f.evalFrom answers)) ∧
    (∀ env : Assignment,
      (f.eval? env = none ↔ ∃ v ∈ f.occurrences, env.get? v = none) ∧
      ∀ value, (∀ v ∈ f.occurrences, env.get? v = some (value v)) →
        f.eval? env = some (f.eval value)) ∧
    (f.Canonical → (f.pivot = none ↔ f.isConst = true)) := by
  refine ⟨⟨pivot_eq_head? f, pivot_eq_none_iff, walk_leftmost f⟩,
    ⟨fun v => mem_vars, walk_collect f⟩, fun v => ⟨mentions_iff, walk_seek f v⟩, ?_, ?_, ?_, ?_⟩
  · exact fun value => evalAsking_eq value f
  · exact fun m _ _ lookup => evalM_eq_mapM lookup f
  · exact fun env => ⟨eval?_eq_none_iff_exists, fun value h => eval?_of_agrees h⟩
  · exact fun h => h.pivot_eq_none_iff

def settledEarly : Formula := .binary .or (.not (.var .q)) (.binary .and (.var .p) (.var .q))

theorem queries_read_occurrences_settledEarly :
    settledEarly.Canonical ∧ settledEarly.pivot ≠ none ∧
      (∀ v ∈ settledEarly.occurrences,
        (Assignment.ofList [(.p, true), (.q, false)]).get? v = some (decide (v = .p))) ∧
      settledEarly.eval? (.ofList [(.p, true), (.q, false)]) =
        some (settledEarly.eval fun v => decide (v = .p)) ∧
      settledEarly.eval? (.ofList [(.q, false)]) = none ∧
      settledEarly.evalM (fun v => (.error v : Except Variable Bool)) = .error .q := by
  have hcanonical : settledEarly.Canonical := by decide
  have hagrees : ∀ v ∈ settledEarly.occurrences,
      (Assignment.ofList [(.p, true), (.q, false)]).get? v = some (decide (v = .p)) := by decide
  obtain ⟨-, -, -, -, heffect, henv, hpivot⟩ := queries_read_occurrences settledEarly
  refine ⟨hcanonical, ?_, hagrees, (henv _).2 _ hagrees, ?_, ?_⟩
  · exact mt (hpivot hcanonical).mp (by decide)
  · exact (henv _).1.mpr ⟨.p, by decide, by decide⟩
  · exact heffect (Except Variable) .error

end Propositional.Formula
