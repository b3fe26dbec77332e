import Propositional.Formula.Occurrence
import Propositional.Formula.Walk
import Propositional.Proofs.Formula.Session

/-!
# Walks and where they are broken off

A walk takes the marks of a formula one after another, so what a visitor sees of
a full walk is a part of one list, and one that stops at its `k`-th mark sees
the first `k` of these. The entered nodes and the left ones are the nodes at all
positions of the formula, each position once: a node before its operands or
after them, and the operands from the left. Together they are brackets, opened
and closed by the same node.
-/

set_option autoImplicit false

namespace Propositional.Formula

variable {f : Formula} {selects : Mark → Bool} {seen ms : List Mark} {k : Nat}

def marks : Formula → List Mark
  | const b => [.enter (const b), .leave (const b)]
  | var v => [.enter (var v), .occurrence v, .leave (var v)]
  | not f => .enter (not f) :: (f.marks ++ [.leave (not f)])
  | binary c l r => .enter (binary c l r) :: (l.marks ++ (r.marks ++ [.leave (binary c l r)]))

/-- A walk takes the marks in turn, whatever the visitor does at them. -/
theorem walk_eq_foldlM {m : Type → Type} [Monad m] [LawfulMonad m] {σ : Type}
    (visit : σ → Mark → m σ) (f : Formula) (s : σ) : f.walk visit s = f.marks.foldlM visit s := by
  induction f generalizing s with
  | const b => simp [walk, marks]
  | var v => simp [walk, marks]
  | not f ih => simp [walk, marks, ih]
  | binary c l r ihl ihr => simp [walk, marks, ihl, ihr]

theorem note_of_not_selected {m : Mark} (h : selects m = false) :
    note selects k seen m = .ok seen := by
  rw [note, h]
  rfl

theorem note_of_selected {m : Mark} (h : selects m = true) :
    note selects k seen m =
      if seen.length + 1 = k then .error (seen ++ [m]) else .ok (seen ++ [m]) := by
  rw [note, if_pos h]

theorem foldlM_note_zero :
    ms.foldlM (note selects 0) seen = .ok (seen ++ ms.filter selects) := by
  induction ms generalizing seen with
  | nil => simp [pure, Except.pure]
  | cons m ms ih =>
    rw [List.foldlM_cons]
    cases hm : selects m with
    | false =>
      rw [note_of_not_selected hm, List.filter_cons_of_neg (by simp [hm])]
      exact ih
    | true =>
      rw [note_of_selected hm, if_neg (Nat.succ_ne_zero _), List.filter_cons_of_pos hm,
        List.append_cons seen m (ms.filter selects)]
      exact ih

/-- As long as fewer than `k` marks have been seen, the walk goes on to the
`k`-th one, if there is one. -/
theorem foldlM_note (hk : seen.length < k) :
    ms.foldlM (note selects k) seen =
      if k ≤ (seen ++ ms.filter selects).length then
        .error ((seen ++ ms.filter selects).take k)
      else .ok ((seen ++ ms.filter selects).take k) := by
  induction ms generalizing seen with
  | nil =>
    have htake : seen.take k = seen := List.take_of_length_le (Nat.le_of_lt hk)
    rw [List.filter_nil, List.append_nil, if_neg (Nat.not_le_of_lt hk), htake]
    rfl
  | cons m ms ih =>
    rw [List.foldlM_cons]
    cases hm : selects m with
    | false =>
      rw [note_of_not_selected hm, List.filter_cons_of_neg (by simp [hm])]
      exact ih hk
    | true =>
      rw [note_of_selected hm, List.filter_cons_of_pos hm,
        List.append_cons seen m (ms.filter selects)]
      have hlength : (seen ++ [m]).length = seen.length + 1 := List.length_append
      by_cases hstop : seen.length + 1 = k
      · -- the mark is the `k`-th one, and the marks after it are not taken
        have hle : k ≤ ((seen ++ [m]) ++ ms.filter selects).length := by
          rw [List.length_append, hlength]
          omega
        have htake : ((seen ++ [m]) ++ ms.filter selects).take k = seen ++ [m] :=
          List.take_left' (hlength.trans hstop)
        rw [if_pos hstop, if_pos hle, htake]
        rfl
      · rw [if_neg hstop]
        exact ih (by omega)

theorem observe_zero (selects : Mark → Bool) (f : Formula) :
    f.observe selects 0 = .ok (f.marks.filter selects) := by
  rw [observe, walk_eq_foldlM, foldlM_note_zero]
  rfl

theorem observe_of_pos (selects : Mark → Bool) (f : Formula) (hk : 0 < k) :
    f.observe selects k =
      if k ≤ (f.marks.filter selects).length then .error ((f.marks.filter selects).take k)
      else .ok ((f.marks.filter selects).take k) := by
  rw [observe, walk_eq_foldlM, foldlM_note hk]
  rfl

def nodesUp : Formula → List Formula
  | const b => [const b]
  | var v => [var v]
  | not f => f.nodesUp ++ [not f]
  | binary c l r => l.nodesUp ++ (r.nodesUp ++ [binary c l r])

theorem filter_isEnter_marks (f : Formula) : f.marks.filter Mark.isEnter = f.nodes.map .enter := by
  induction f with
  | const b => rfl
  | var v => rfl
  | not f ih => simp [marks, nodes, List.filter_cons, Mark.isEnter, ih]
  | binary c l r ihl ihr => simp [marks, nodes, List.filter_cons, Mark.isEnter, ihl, ihr]

theorem filter_isLeave_marks (f : Formula) :
    f.marks.filter Mark.isLeave = f.nodesUp.map .leave := by
  induction f with
  | const b => rfl
  | var v => rfl
  | not f ih => simp [marks, nodesUp, List.filter_cons, Mark.isLeave, ih]
  | binary c l r ihl ihr => simp [marks, nodesUp, List.filter_cons, Mark.isLeave, ihl, ihr]

theorem filter_isOccurrence_marks (f : Formula) :
    f.marks.filter Mark.isOccurrence = f.occurrences.map .occurrence := by
  induction f with
  | const b => rfl
  | var v => rfl
  | not f ih => simp [marks, occurrences, Mark.isOccurrence, ih]
  | binary c l r ihl ihr => simp [marks, occurrences, Mark.isOccurrence, ihl, ihr]

theorem length_nodes (f : Formula) : f.nodes.length = f.size := by
  induction f with
  | const b => rfl
  | var v => rfl
  | not f ih => rw [nodes, List.length_cons, ih, size]
  | binary c l r ihl ihr => rw [nodes, List.length_cons, List.length_append, ihl, ihr, size]

theorem length_nodesUp (f : Formula) : f.nodesUp.length = f.size := by
  induction f with
  | const b => rfl
  | var v => rfl
  | not f ih => simp [nodesUp, size, ih]
  | binary c l r ihl ihr => simp [nodesUp, size, ihl, ihr, Nat.add_assoc]

/-- Which operand is taken at each node on the way down: the first, which a
negation has as well, or the second. -/
abbrev Position := List Bool

def node? : Formula → Position → Option Formula
  | f, [] => some f
  | not f, false :: p => f.node? p
  | binary _ l _, false :: p => l.node? p
  | binary _ _ r, true :: p => r.node? p
  | _, _ :: _ => none

def Above (p q : Position) : Prop := ∃ b u, q = p ++ b :: u

def LeftOf (p q : Position) : Prop := ∃ stem u w, p = stem ++ false :: u ∧ q = stem ++ true :: w

def Precedes : Bool → Position → Position → Prop
  | true, p, q => Above p q ∨ LeftOf p q
  | false, p, q => Above q p ∨ LeftOf p q

def Traverses (rootFirst : Bool) (f : Formula) (gs : List Formula) : Prop :=
  ∃ ps : List Position, ps.Nodup ∧ (∀ p, p ∈ ps ↔ (f.node? p).isSome = true) ∧
    ps.Pairwise (Precedes rootFirst) ∧ ps.map f.node? = gs.map some

variable {rootFirst : Bool} {p q : Position}

theorem Above.cons (b : Bool) (h : Above p q) : Above (b :: p) (b :: q) := by
  obtain ⟨c, u, rfl⟩ := h
  exact ⟨c, u, rfl⟩

theorem LeftOf.cons (b : Bool) (h : LeftOf p q) : LeftOf (b :: p) (b :: q) := by
  obtain ⟨stem, u, w, rfl, rfl⟩ := h
  exact ⟨b :: stem, u, w, rfl, rfl⟩

theorem Precedes.cons (b : Bool) (h : Precedes rootFirst p q) :
    Precedes rootFirst (b :: p) (b :: q) := by
  cases rootFirst with
  | true => exact h.imp (Above.cons b) (LeftOf.cons b)
  | false => exact h.imp (Above.cons b) (LeftOf.cons b)

theorem precedes_left_right (u w : Position) : Precedes rootFirst (false :: u) (true :: w) := by
  have hleft : LeftOf (false :: u) (true :: w) := ⟨[], u, w, rfl, rfl⟩
  cases rootFirst with
  | true => exact .inr hleft
  | false => exact .inr hleft

theorem not_above_self (p : Position) : ¬Above p p := by
  rintro ⟨b, u, h⟩
  have := congrArg List.length h
  simp at this

theorem not_precedes_self (p : Position) : ¬Precedes rootFirst p p := by
  have hleft : ¬LeftOf p p := by
    rintro ⟨stem, u, w, hu, hw⟩
    have := List.append_cancel_left (hu.symm.trans hw)
    cases this
  cases rootFirst with
  | true => exact not_or.mpr ⟨not_above_self p, hleft⟩
  | false => exact not_or.mpr ⟨not_above_self p, hleft⟩

def place (rootFirst : Bool) (below : List Position) : List Position :=
  if rootFirst then [] :: below else below ++ [[]]

def join (left right : List Position) : List Position :=
  left.map (false :: ·) ++ right.map (true :: ·)

def positions (rootFirst : Bool) : Formula → List Position
  | const _ => place rootFirst (join [] [])
  | var _ => place rootFirst (join [] [])
  | not f => place rootFirst (join (f.positions rootFirst) [])
  | binary _ l r => place rootFirst (join (l.positions rootFirst) (r.positions rootFirst))

theorem mem_place {below : List Position} : p ∈ place rootFirst below ↔ p = [] ∨ p ∈ below := by
  cases rootFirst <;> simp [place, or_comm]

theorem mem_positions (p : Position) :
    p ∈ f.positions rootFirst ↔ (f.node? p).isSome = true := by
  induction f generalizing p with
  | const b => rcases p with _ | ⟨_ | _, p⟩ <;> simp [positions, mem_place, join, node?]
  | var v => rcases p with _ | ⟨_ | _, p⟩ <;> simp [positions, mem_place, join, node?]
  | not f ih => rcases p with _ | ⟨_ | _, p⟩ <;> simp [positions, mem_place, join, node?, ih]
  | binary c l r ihl ihr =>
    rcases p with _ | ⟨_ | _, p⟩ <;> simp [positions, mem_place, join, node?, ihl, ihr]

theorem pairwise_join {left right : List Position} (hl : left.Pairwise (Precedes rootFirst))
    (hr : right.Pairwise (Precedes rootFirst)) :
    (join left right).Pairwise (Precedes rootFirst) := by
  rw [join, List.pairwise_append, List.pairwise_map, List.pairwise_map]
  refine ⟨hl.imp (Precedes.cons false), hr.imp (Precedes.cons true), ?_⟩
  intro p hp q hq
  obtain ⟨u, -, rfl⟩ := List.mem_map.mp hp
  obtain ⟨w, -, rfl⟩ := List.mem_map.mp hq
  exact precedes_left_right u w

theorem above_of_mem_join {left right : List Position} (h : p ∈ join left right) :
    Above [] p := by
  rcases List.mem_append.mp h with h | h <;> obtain ⟨u, -, rfl⟩ := List.mem_map.mp h
  · exact ⟨false, u, rfl⟩
  · exact ⟨true, u, rfl⟩

theorem pairwise_place_join {left right : List Position} (hl : left.Pairwise (Precedes rootFirst))
    (hr : right.Pairwise (Precedes rootFirst)) :
    (place rootFirst (join left right)).Pairwise (Precedes rootFirst) := by
  have hjoin := pairwise_join hl hr
  cases rootFirst with
  | true => exact .cons (fun p hp => .inl (above_of_mem_join hp)) hjoin
  | false =>
    refine List.pairwise_append.mpr ⟨hjoin, List.pairwise_singleton _ _, fun p hp q hq => ?_⟩
    rw [List.mem_singleton.mp hq]
    exact .inl (above_of_mem_join hp)

theorem pairwise_positions (f : Formula) :
    (f.positions rootFirst).Pairwise (Precedes rootFirst) := by
  induction f with
  | const b => exact pairwise_place_join .nil .nil
  | var v => exact pairwise_place_join .nil .nil
  | not f ih => exact pairwise_place_join ih .nil
  | binary c l r ihl ihr => exact pairwise_place_join ihl ihr

theorem nodup_positions (f : Formula) : (f.positions rootFirst).Nodup := by
  refine (pairwise_positions f).imp ?_
  rintro p _ h rfl
  exact not_precedes_self p h

theorem traverses_positions {gs : List Formula}
    (h : (f.positions rootFirst).map f.node? = gs.map some) : Traverses rootFirst f gs :=
  ⟨_, nodup_positions f, mem_positions, pairwise_positions f, h⟩

theorem traverses_nodes (f : Formula) : Traverses true f f.nodes := by
  apply traverses_positions
  induction f with
  | const b => rfl
  | var v => rfl
  | not f ih => simpa [positions, place, join, nodes, node?, Function.comp_def] using ih
  | binary c l r ihl ihr =>
    simp [positions, place, join, nodes, node?, Function.comp_def, ← ihl, ← ihr]

theorem traverses_nodesUp (f : Formula) : Traverses false f f.nodesUp := by
  apply traverses_positions
  induction f with
  | const b => rfl
  | var v => rfl
  | not f ih => simpa [positions, place, join, nodesUp, node?, Function.comp_def] using ih
  | binary c l r ihl ihr =>
    simp [positions, place, join, nodesUp, node?, Function.comp_def, ← ihl, ← ihr]

inductive Bracketed : List Mark → Prop where
  | nil : Bracketed []
  | pair (f : Formula) {inner rest : List Mark} (hinner : Bracketed inner)
      (hrest : Bracketed rest) : Bracketed (.enter f :: (inner ++ .leave f :: rest))

theorem Bracketed.append {ms ns : List Mark} (hms : Bracketed ms) (hns : Bracketed ns) :
    Bracketed (ms ++ ns) := by
  induction hms with
  | nil => exact hns
  | pair f hinner _ _ ihrest =>
    rw [List.cons_append, List.append_assoc, List.cons_append]
    exact .pair f hinner ihrest

def brackets (f : Formula) : List Mark := f.marks.filter (!·.isOccurrence)

theorem brackets_not (f : Formula) :
    (not f).brackets = .enter (not f) :: (f.brackets ++ [.leave (not f)]) := by
  simp [brackets, marks, Mark.isOccurrence]

theorem brackets_binary (c : Connective) (l r : Formula) :
    (binary c l r).brackets =
      .enter (binary c l r) :: ((l.brackets ++ r.brackets) ++ [.leave (binary c l r)]) := by
  simp [brackets, marks, Mark.isOccurrence]

theorem bracketed_brackets (f : Formula) : Bracketed f.brackets := by
  induction f with
  | const b => exact .pair (const b) .nil .nil
  | var v => exact .pair (var v) .nil .nil
  | not f ih =>
    rw [brackets_not]
    exact .pair (not f) ih .nil
  | binary c l r ihl ihr =>
    rw [brackets_binary]
    exact .pair (binary c l r) (ihl.append ihr) .nil

theorem length_brackets (f : Formula) : f.brackets.length = 2 * f.size := by
  induction f with
  | const b => rfl
  | var v => rfl
  | not f ih =>
    rw [brackets_not, List.length_cons, List.length_append, ih, List.length_singleton, size]
    omega
  | binary c l r ihl ihr =>
    rw [brackets_binary, List.length_cons, List.length_append, List.length_append, ihl, ihr,
      List.length_singleton, size]
    omega

theorem not_isOccurrence {m : Mark} (h : m.isEnter = true ∨ m.isLeave = true) :
    m.isOccurrence = false := by
  cases m with
  | enter g => rfl
  | leave g => rfl
  | occurrence v => exact h.elim nofun nofun

theorem filter_brackets {isKind : Mark → Bool}
    (h : ∀ m, isKind m = true → m.isOccurrence = false) :
    f.brackets.filter isKind = f.marks.filter isKind := by
  rw [brackets, List.filter_filter]
  refine List.filter_congr fun m _ => ?_
  cases hm : isKind m with
  | false => rfl
  | true => simp [h m hm]

/-- A walk that is broken off at the `k`-th mark of a selection has seen the
first `k` marks of the full walk, and it is broken off exactly when there are so
many. Entering marks give the nodes before their operands, leaving marks after
them, both together are brackets, and the occurrences are read from the left. -/
theorem observe_cut_short (f : Formula) :
    (∀ selects : Mark → Bool, ∃ full, f.observe selects 0 = .ok full ∧
      ∀ k, 0 < k → f.observe selects k =
        if k ≤ full.length then .error (full.take k) else .ok (full.take k)) ∧
    (f.observe Mark.isEnter 0 = .ok (f.nodes.map .enter) ∧ f.nodes.length = f.size ∧
      Traverses true f f.nodes) ∧
    (f.observe Mark.isLeave 0 = .ok (f.nodesUp.map .leave) ∧ f.nodesUp.length = f.size ∧
      Traverses false f f.nodesUp) ∧
    f.observe Mark.isOccurrence 0 = .ok (f.occurrences.map .occurrence) ∧
    ∃ both, f.observe (!·.isOccurrence) 0 = .ok both ∧ both.length = 2 * f.size ∧
      Bracketed both ∧ both.filter Mark.isEnter = f.nodes.map .enter ∧
      both.filter Mark.isLeave = f.nodesUp.map .leave := by
  refine ⟨fun selects => ?_, ⟨?_, length_nodes f, traverses_nodes f⟩,
    ⟨?_, length_nodesUp f, traverses_nodesUp f⟩, ?_, ?_⟩
  · exact ⟨_, observe_zero selects f, fun k hk => observe_of_pos selects f hk⟩
  · rw [observe_zero, filter_isEnter_marks]
  · rw [observe_zero, filter_isLeave_marks]
  · rw [observe_zero, filter_isOccurrence_marks]
  · refine ⟨f.brackets, observe_zero _ f, length_brackets f, bracketed_brackets f, ?_, ?_⟩
    · rw [filter_brackets fun m h => not_isOccurrence (.inl h), filter_isEnter_marks]
    · rw [filter_brackets fun m h => not_isOccurrence (.inr h), filter_isLeave_marks]

def lopsidedOr : Formula := .binary .or (.not (.var .p)) (.binary .and (.var .q) (.var .p))

theorem observe_cut_short_lopsidedOr :
    0 < 4 ∧ lopsidedOr.observe Mark.isLeave 4 =
      .error [.leave (.var .p), .leave (.not (.var .p)), .leave (.var .q), .leave (.var .p)] := by
  obtain ⟨full, hfull, hcut⟩ := (observe_cut_short lopsidedOr).1 Mark.isLeave
  have hpost := (observe_cut_short lopsidedOr).2.2.1.1
  obtain rfl : full = lopsidedOr.nodesUp.map .leave := Except.ok.inj (hfull.symm.trans hpost)
  have hk : 0 < 4 := by decide
  refine ⟨hk, ?_⟩
  rw [hcut 4 hk]
  rfl

end Propositional.Formula
