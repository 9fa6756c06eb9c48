import Porch.Go.Strings

/- Label selectors of k8s.io/apimachinery, `pkg/labels` and `pkg/selection`: a selector
   is a list of requirements, and a set of labels matches it when it meets every one. -/
namespace K8s

open Go

inductive Operator where
  | doesNotExist
  | equals
  | doubleEquals
  | isIn
  | notEquals
  | notIn
  | isPresent
  | greaterThan
  | lessThan
deriving DecidableEq, Repr

def Operator.isComparison : Operator → Bool
  | .greaterThan | .lessThan => true
  | _ => false

/-- How many values `NewRequirement` accepts for an operator. -/
def Operator.accepts : Operator → List Str → Prop
  | .isIn, vs | .notIn, vs => vs ≠ []
  | .equals, vs | .doubleEquals, vs | .notEquals, vs => vs.length = 1
  | .isPresent, vs | .doesNotExist, vs => vs = []
  | .greaterThan, vs | .lessThan, vs => vs.length = 1

/-- A requirement that `NewRequirement` has made. -/
structure Requirement where
  key : Str
  operator : Operator
  values : List Str
  accepted : operator.accepts values

/-- Whether the requirement is met by the value of its label, none if there is no such
    label. A comparison parses both sides as 64-bit integers. -/
def Requirement.admits (req : Requirement) (value : Option Str) : Bool :=
  match req.operator with
  | .isIn | .equals | .doubleEquals => value.any req.values.contains
  | .notIn | .notEquals => !value.any req.values.contains
  | .isPresent => value.isSome
  | .doesNotExist => value.isNone
  | .greaterThan => compare fun l r => decide (r < l)
  | .lessThan => compare fun l r => decide (l < r)
where
  compare (test : Int → Int → Bool) : Bool :=
    (value.bind atoi).any fun l => (req.values.head?.bind atoi).any fun r => test l r

def Requirement.matches (req : Requirement) (labels : List (Str × Str)) : Bool :=
  req.admits (labels.lookup req.key)

abbrev Selector := List Requirement

def Selector.matches (sel : Selector) (labels : List (Str × Str)) : Bool :=
  sel.all fun req => req.matches labels

theorem lookup_filter {labels : List (Str × Str)} {p : Str → Bool} {k : Str} :
    (labels.filter fun l => p l.1).lookup k = if p k then labels.lookup k else none := by
  induction labels with
  | nil => simp
  | cons l ls ih =>
    obtain ⟨key, value⟩ := l
    rw [List.filter_cons, List.lookup_cons]
    by_cases hk : k = key
    · subst hk
      cases hp : p k <;> simp [ih, hp]
    · rw [beq_eq_false_iff_ne.mpr hk]
      cases hp : p key <;> simp [List.lookup_cons, ih, beq_eq_false_iff_ne.mpr hk]

end K8s
