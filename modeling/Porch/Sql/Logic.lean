import Mathlib

/- SQL's three-valued logic, as PostgreSQL evaluates it. A value that may be NULL
   is an `Option`, a truth value is an `Option Bool` with `none` for unknown. A
   comparison with NULL is unknown, and `IF`, `WHERE` and PL/pgSQL conditions
   take their branch only when the condition is true. -/
namespace Sql

abbrev Tri := Option Bool

namespace Tri

def not : Tri → Tri
  | some b => some (!b)
  | none => none

def and : Tri → Tri → Tri
  | some false, _ => some false
  | _, some false => some false
  | some true, some true => some true
  | _, _ => none

def or : Tri → Tri → Tri
  | some true, _ => some true
  | _, some true => some true
  | some false, some false => some false
  | _, _ => none

/-- A condition is taken only when it is true. -/
def holds (t : Tri) : Bool := t == some true

@[simp] theorem not_some (b : Bool) : Tri.not (some b) = some (!b) := rfl

@[simp] theorem not_none : Tri.not none = none := rfl

@[simp] theorem or_some (a b : Bool) : Tri.or (some a) (some b) = some (a || b) := by
  cases a <;> cases b <;> rfl

@[simp] theorem or_none_right (a : Bool) : Tri.or (some a) none = if a then some true else none := by
  cases a <;> rfl

@[simp] theorem or_none : Tri.or none none = none := rfl

@[simp] theorem holds_some (b : Bool) : holds (some b) = b := by
  cases b <;> rfl

@[simp] theorem holds_none : holds none = false := rfl

@[simp] theorem holds_and (s t : Tri) : holds (Tri.and s t) = (holds s && holds t) := by
  rcases s with _ | _ | _ <;> rcases t with _ | _ | _ <;> rfl

@[simp] theorem holds_or (s t : Tri) : holds (Tri.or s t) = (holds s || holds t) := by
  rcases s with _ | _ | _ <;> rcases t with _ | _ | _ <;> rfl

end Tri

/-! Comparisons -/

section Compare

variable {α : Type}

/-- `a = b`, unknown when either side is NULL. -/
def eq [DecidableEq α] (a b : Option α) : Tri := a.bind fun x => b.map fun y => decide (x = y)

/-- `a != b`. -/
def ne [DecidableEq α] (a b : Option α) : Tri := Tri.not (eq a b)

/-- `a < b`. -/
def lt (a b : Option Int) : Tri := a.bind fun x => b.map fun y => decide (x < y)

@[simp] theorem eq_some [DecidableEq α] (x y : α) : eq (some x) (some y) = some (decide (x = y)) := rfl

@[simp] theorem eq_none_left [DecidableEq α] (b : Option α) : eq none b = none := rfl

@[simp] theorem eq_none_right [DecidableEq α] (a : Option α) : eq a none = none := by
  cases a <;> rfl

@[simp] theorem ne_some [DecidableEq α] (x y : α) :
    ne (some x) (some y) = some (!decide (x = y)) := rfl

@[simp] theorem ne_none_left [DecidableEq α] (b : Option α) : ne none b = none := rfl

@[simp] theorem ne_none_right [DecidableEq α] (a : Option α) : ne a none = none := by
  cases a <;> rfl

@[simp] theorem lt_some (x y : Int) : lt (some x) (some y) = some (decide (x < y)) := rfl

@[simp] theorem lt_none_left (b : Option Int) : lt none b = none := rfl

end Compare

end Sql
