/-!
# Propositional variables

A variable is its name. A name begins with an ASCII letter or an underscore
and goes on with ASCII letters, digits and underscores; `ofName` is the only
way from text to a variable and refuses every other text.
-/

set_option autoImplicit false

namespace Propositional

def isNameHead (c : Char) : Bool := c.isAlpha || c == '_'

def isNameTail (c : Char) : Bool := c.isAlphanum || c == '_'

def isNameList : List Char → Bool
  | [] => false
  | c :: rest => isNameHead c && rest.all isNameTail

def isName (name : String) : Bool := isNameList name.toList

structure Variable where
  name : String
  valid : isName name = true
  deriving DecidableEq

structure InvalidName where
  name : String
  deriving DecidableEq

namespace InvalidName

def message (e : InvalidName) : String :=
  "invalid input: `" ++ e.name ++ "` is not a valid variable name"

end InvalidName

namespace Variable

theorem ext_name {v w : Variable} (h : v.name = w.name) : v = w := by
  cases v
  cases w
  cases h
  rfl

def ofName (name : String) : Except InvalidName Variable :=
  if h : isName name = true then .ok ⟨name, h⟩ else .error ⟨name⟩

theorem ofName_eq_ok_iff {name : String} {v : Variable} :
    ofName name = .ok v ↔ v.name = name := by
  rw [ofName]
  constructor
  · intro h
    split at h
    · cases h
      rfl
    · cases h
  · rintro rfl
    rw [dif_pos v.valid]

theorem ofName_eq_error_iff {name : String} {e : InvalidName} :
    ofName name = .error e ↔ isName name = false ∧ e = ⟨name⟩ := by
  rw [ofName]
  by_cases h : isName name = true
  · simp [h]
  · simp [h, eq_comm]

instance : Ord Variable := ⟨fun v w => String.instOrd.compare v.name w.name⟩

instance : Std.TransOrd Variable where
  eq_swap {v w} := @Std.OrientedCmp.eq_swap _ String.instOrd.compare _ v.name w.name
  isLE_trans {u v w} :=
    @Std.TransCmp.isLE_trans _ String.instOrd.compare _ u.name v.name w.name

instance : Std.LawfulEqOrd Variable where
  compare_self {v} := @Std.ReflCmp.compare_self _ String.instOrd.compare _ v.name
  eq_of_compare h :=
    ext_name (@Std.LawfulEqCmp.eq_of_compare _ String.instOrd.compare _ _ _ h)

end Variable

end Propositional
