import Porch.Db.Schema
import Porch.Go.Json
import Porch.K8s.Selector
import Porch.Sql.Literal

/- Label selectors on package revisions: the WHERE clause of
   `pkg/cache/dbcache/dbsqlfiltering.go` and `MatchesLabels` of
   `pkg/repository/repository.go`.

     labelSelectorToJSONBClauses  labelSelectorToJSONBClauses, labelClause

   A clause is its syntax tree, with the text that is sent (`render`) and what it is
   worth on a row (`eval`). `meta::jsonb->'labels'` is NULL when there are no labels,
   since an empty map is left out of the JSON.

   The two evaluators agree on a row exactly when no requirement is read differently, or
   it does not matter (`label_where_iff`): the test for a missing label does not find
   rows without any labels (`missing_label_not_found`). -/
namespace Porch.Db

open Go Sql K8s

/-! The WHERE clause -/

/-- A condition on a row that a requirement is turned into. -/
inductive Clause where
  | labelIs (key value : Str)
  | labelIsNot (key value : Str)
  | labelIn (key : Str) (values : List Str)
  | labelNotIn (key : Str) (values : List Str)
  | hasLabel (key : Str)
  | lacksLabel (key : Str)
  | latestIs (b : Bool)
  | always
deriving DecidableEq, Repr

/-- `jsonbContainsClause`: the entry is encoded as JSON, then the quotes of the constant
    are doubled. -/
def jsonbContainsClause (jsonbObject key value : Str) : Str :=
  '(' :: jsonbObject ++ " @> '" ++ escape (Json.marshalEntry key value) ++ "')"

namespace Clause

def jsonbPath : Str := "package_revisions.meta::jsonb->'labels'"

def quoted (s : Str) : Str := '\'' :: s ++ ['\'']

def jsonbContains (key value : Str) : Str := jsonbContainsClause jsonbPath key value

def render : Clause → Str
  | labelIs key value => jsonbContains key value
  | labelIsNot key value =>
    "((" ++ jsonbPath ++ "->>" ++ quoted key ++ ") IS NULL OR " ++ jsonbPath ++
      "->>" ++ quoted key ++ " != " ++ quoted value ++ ")"
  | labelIn key values =>
    '(' :: " OR ".toList.intercalate (values.map (jsonbContains key)) ++ [')']
  | labelNotIn key values =>
    "((" ++ jsonbPath ++ "->>" ++ quoted key ++ ") IS NULL OR " ++ jsonbPath ++
      "->>" ++ quoted key ++ " NOT IN (" ++
      ", ".toList.intercalate (values.map quoted) ++ "))".toList
  | hasLabel key => '(' :: jsonbPath ++ " ? " ++ quoted key ++ [')']
  | lacksLabel key => "(NOT (" ++ jsonbPath ++ " ? " ++ quoted key ++ "))"
  | latestIs true => "(package_revisions.latest = TRUE)"
  | latestIs false => "(package_revisions.latest = FALSE)"
  | always => "TRUE"

/-- `meta::jsonb->'labels'`. -/
def labelsJson (x : PkgRevRow) : Option Labels := if x.labels = [] then none else some x.labels

/-- `meta::jsonb->'labels'->>'key'`. -/
def labelText (x : PkgRevRow) (key : Str) : Option Str := (labelsJson x).bind fun l => l.lookup key

/-- `text = value1 OR text = value2 ...`, which `IN` stands for. -/
def isOneOf (text : Option Str) (values : List Str) : Tri :=
  values.foldr (fun v t => Tri.or (eq text (some v)) t) (some false)

def eval (x : PkgRevRow) : Clause → Tri
  | labelIs key value => (labelsJson x).map fun l => l.lookup key = some value
  | labelIsNot key value =>
    Tri.or (some (labelText x key).isNone) (ne (labelText x key) (some value))
  | labelIn key values =>
    values.foldr (fun v t => Tri.or ((labelsJson x).map fun l => l.lookup key = some v) t) (some false)
  | labelNotIn key values =>
    Tri.or (some (labelText x key).isNone) (Tri.not (isOneOf (labelText x key) values))
  | hasLabel key => (labelsJson x).map fun l => (l.lookup key).isSome
  | lacksLabel key => Tri.not ((labelsJson x).map fun l => (l.lookup key).isSome)
  | latestIs b => eq (some x.latest) (some b)
  | always => some true

end Clause

def latestRevisionClause (op : Operator) (values : List Str) : Clause :=
  let isTrue := values.head? = some latestPackageRevisionValue
  let hasTrue := values.contains latestPackageRevisionValue
  match op with
  | .equals | .doubleEquals => .latestIs isTrue
  | .notEquals => .latestIs !isTrue
  | .isIn => .latestIs hasTrue
  | .notIn => .latestIs !hasTrue
  | .isPresent => .latestIs true
  | .doesNotExist => .latestIs false
  | .greaterThan | .lessThan => .always

/-- One turn of the loop of `labelSelectorToJSONBClauses`. -/
def labelClause (req : Requirement) : Option Clause :=
  if req.key = latestPackageRevisionKey then
    some (latestRevisionClause req.operator req.values)
  else
    match req.operator with
    | .equals | .doubleEquals => some (.labelIs req.key (req.values.headD []))
    | .notEquals => some (.labelIsNot req.key (req.values.headD []))
    | .isIn => some (.labelIn req.key req.values)
    | .notIn => some (.labelNotIn req.key req.values)
    | .isPresent => some (.hasLabel req.key)
    | .doesNotExist => some (.lacksLabel req.key)
    | .greaterThan | .lessThan => none

def labelSelectorToJSONBClauses (sel : Selector) : List Clause := sel.filterMap labelClause

/-- The text of `filter2SubClausePrLabels` as the first sub-clause, empty for no
    selector and for one without clauses. -/
def filter2SubClausePrLabels : Option Selector → Str
  | none => []
  | some sel =>
    match labelSelectorToJSONBClauses sel with
    | [] => []
    | cs => '(' :: " AND ".toList.intercalate (cs.map Clause.render) ++ [')']

/-- What that condition is worth on a row. -/
def labelsCondition (label : Option Selector) (x : PkgRevRow) : Tri :=
  match label with
  | none => some true
  | some sel =>
    (labelSelectorToJSONBClauses sel).foldr (fun c t => Tri.and (c.eval x) t) (some true)

def selectByLabels (t : PkgRevTable) (label : Option Selector) : List PkgRevRow :=
  t.rows.filter fun x => (labelsCondition label x).holds

/-! The other evaluator -/

def getPkgRevLabels (x : PkgRevRow) : Labels :=
  if x.latest then
    (latestPackageRevisionKey, latestPackageRevisionValue) ::
      x.labels.filter fun l => l.1 ≠ latestPackageRevisionKey
  else x.labels

def matchesLabels (label : Option Selector) (x : PkgRevRow) : Bool :=
  match label with
  | none => true
  | some sel => sel.matches (getPkgRevLabels x)

/-! One requirement -/

section Requirement

variable {x : PkgRevRow} {req : Requirement}

theorem labelText_eq (x : PkgRevRow) (key : Str) : Clause.labelText x key = x.labels.lookup key := by
  unfold Clause.labelText Clause.labelsJson
  by_cases h : x.labels = []
  · rw [if_pos h, h]
    rfl
  · rw [if_neg h]
    rfl

theorem holds_labelsJson (x : PkgRevRow) (p : Labels → Bool) (hp : p [] = false) :
    Tri.holds ((Clause.labelsJson x).map p) = p x.labels := by
  unfold Clause.labelsJson
  by_cases h : x.labels = []
  · rw [if_pos h, h, hp]
    rfl
  · rw [if_neg h]
    exact Tri.holds_some _

theorem holds_labelIs (x : PkgRevRow) (key value : Str) :
    ((Clause.labelIs key value).eval x).holds = decide (x.labels.lookup key = some value) :=
  holds_labelsJson x (fun l => l.lookup key = some value) rfl

theorem holds_labelIn (x : PkgRevRow) (key : Str) (values : List Str) :
    ((Clause.labelIn key values).eval x).holds = (x.labels.lookup key).any values.contains := by
  simp only [Clause.eval]
  induction values with
  | nil => cases x.labels.lookup key <;> rfl
  | cons v vs ih =>
    rw [List.foldr_cons, Tri.holds_or, ih, holds_labelsJson x (fun l => l.lookup key = some v) rfl]
    cases x.labels.lookup key with
    | none => simp
    | some s => simp [eq_comm]

theorem isOneOf_some (s : Str) (values : List Str) :
    Clause.isOneOf (some s) values = some (values.contains s) := by
  unfold Clause.isOneOf
  induction values with
  | nil => rfl
  | cons v vs ih =>
    rw [List.foldr_cons, ih, eq_some, Tri.or_some]
    simp

theorem holds_labelNotIn (x : PkgRevRow) (key : Str) (values : List Str) :
    ((Clause.labelNotIn key values).eval x).holds = !(x.labels.lookup key).any values.contains := by
  simp only [Clause.eval]
  rw [labelText_eq]
  cases x.labels.lookup key with
  | none =>
    rw [Tri.holds_or]
    rfl
  | some s =>
    rw [isOneOf_some]
    simp

theorem holds_labelIsNot (x : PkgRevRow) (key value : Str) :
    ((Clause.labelIsNot key value).eval x).holds = !(x.labels.lookup key).any (· = value) := by
  simp only [Clause.eval]
  rw [labelText_eq]
  cases x.labels.lookup key with
  | none =>
    rw [Tri.holds_or]
    rfl
  | some s => simp

theorem holds_hasLabel (x : PkgRevRow) (key : Str) :
    ((Clause.hasLabel key).eval x).holds = (x.labels.lookup key).isSome :=
  holds_labelsJson x (fun l => (l.lookup key).isSome) rfl

theorem holds_lacksLabel (x : PkgRevRow) (key : Str) : ((Clause.lacksLabel key).eval x).holds =
      (decide (x.labels ≠ []) && (x.labels.lookup key).isNone) := by
  simp only [Clause.eval, Clause.labelsJson]
  by_cases h : x.labels = []
  · rw [if_pos h, decide_eq_false (not_not.mpr h)]
    rfl
  · rw [if_neg h, decide_eq_true h, Option.map_some]
    cases x.labels.lookup key <;> rfl

/-- Whether the query lets the row pass the requirement: what has no clause passes. -/
def requirementHolds (req : Requirement) (x : PkgRevRow) : Bool :=
  (labelClause req).all fun c => (c.eval x).holds

theorem lookup_getPkgRevLabels {key : Str} (h : key ≠ latestPackageRevisionKey) :
    (getPkgRevLabels x).lookup key = x.labels.lookup key := by
  unfold getPkgRevLabels
  split
  · rw [List.lookup_cons, beq_eq_false_iff_ne.mpr h]
    exact (lookup_filter (p := (· ≠ latestPackageRevisionKey))).trans (by simp [h])
  · rfl

theorem lookup_latest (h : x.latest = true) :
    (getPkgRevLabels x).lookup latestPackageRevisionKey = some latestPackageRevisionValue := by
  rw [getPkgRevLabels, if_pos h]
  exact List.lookup_cons_self

/-- A label other than that of the latest revision is read as it is stored, but the test
    for a missing one needs labels. -/
theorem requirementHolds_label (hkey : req.key ≠ latestPackageRevisionKey)
    (hop : req.operator.isComparison = false) :
    requirementHolds req x = (req.matches (getPkgRevLabels x) &&
      !(req.operator = .doesNotExist && x.labels = [])) := by
  obtain ⟨key, op, values, hacc⟩ := req
  simp only [Requirement.matches, lookup_getPkgRevLabels hkey]
  unfold requirementHolds labelClause
  simp only [if_neg hkey]
  cases op with
  | doesNotExist =>
    simp only [Option.all_some, holds_lacksLabel, Requirement.admits]
    cases x.labels <;> simp
  | equals | doubleEquals =>
    obtain ⟨v, rfl⟩ := List.length_eq_one_iff.mp hacc
    simp only [Option.all_some, holds_labelIs, Requirement.admits]
    cases x.labels.lookup key <;> simp
  | isIn =>
    simp only [Option.all_some, holds_labelIn, Requirement.admits]
    simp
  | notEquals =>
    obtain ⟨v, rfl⟩ := List.length_eq_one_iff.mp hacc
    simp only [Option.all_some, holds_labelIsNot, Requirement.admits]
    cases x.labels.lookup key <;> simp
  | notIn =>
    simp only [Option.all_some, holds_labelNotIn, Requirement.admits]
    simp
  | isPresent =>
    simp only [Option.all_some, holds_hasLabel, Requirement.admits]
    simp
  | greaterThan | lessThan => cases hop

theorem latestRevisionClause_eq (hop : req.operator.isComparison = false) :
    latestRevisionClause req.operator req.values =
      .latestIs (req.admits (some latestPackageRevisionValue)) := by
  obtain ⟨key, op, values, hacc⟩ := req
  simp only [latestRevisionClause, Requirement.admits, Option.any_some]
  cases op with
  | equals | doubleEquals | notEquals =>
    obtain ⟨v, rfl⟩ := List.length_eq_one_iff.mp hacc
    simp [eq_comm]
  | isIn | notIn | isPresent | doesNotExist => rfl
  | greaterThan | lessThan => cases hop

/-- The label of the latest revision is read as a flag: a revision that is not the
    latest passes what the value `true` does not. -/
theorem requirementHolds_latest (hkey : req.key = latestPackageRevisionKey)
    (hop : req.operator.isComparison = false) :
    requirementHolds req x = (req.admits (some latestPackageRevisionValue) == x.latest) := by
  rw [requirementHolds, labelClause, if_pos hkey, latestRevisionClause_eq hop, Option.all_some]
  simp only [Clause.eval, Sql.eq]
  cases x.latest <;> cases req.admits (some latestPackageRevisionValue) <;> rfl

theorem requirementHolds_comparison (hop : req.operator.isComparison = true) :
    requirementHolds req x = true := by
  obtain ⟨key, op, values, hacc⟩ := req
  unfold requirementHolds labelClause
  cases op with
  | greaterThan | lessThan =>
    split <;> rfl
  | doesNotExist | equals | doubleEquals | isIn | notEquals | notIn | isPresent => cases hop

/-- The query lets the row pass, the selector does not: the requirement is a comparison,
    or the row is taken to have a label for not being the latest. -/
def Loosened (req : Requirement) (x : PkgRevRow) : Prop :=
  req.matches (getPkgRevLabels x) = false ∧
    (req.operator.isComparison = true ∨
      req.key = latestPackageRevisionKey ∧ x.latest = false ∧
        req.admits (some latestPackageRevisionValue) = false)

/-- The selector lets the row pass, the query does not: the row has no labels to test
    for a missing one, or it has the label by hand and is not the latest. -/
def Tightened (req : Requirement) (x : PkgRevRow) : Prop :=
  req.matches (getPkgRevLabels x) = true ∧
    (req.key ≠ latestPackageRevisionKey ∧ req.operator = .doesNotExist ∧ x.labels = [] ∨
      req.key = latestPackageRevisionKey ∧ req.operator.isComparison = false ∧
        x.latest = false ∧ req.admits (some latestPackageRevisionValue) = true)

theorem reading_iff :
    (Loosened req x ↔ requirementHolds req x = true ∧ req.matches (getPkgRevLabels x) = false) ∧
    (Tightened req x ↔ requirementHolds req x = false ∧ req.matches (getPkgRevLabels x) = true) := by
  unfold Loosened Tightened
  by_cases hop : req.operator.isComparison = true
  · have hne : req.operator ≠ .doesNotExist := by
      intro h
      rw [h] at hop
      cases hop
    rw [requirementHolds_comparison hop]
    simp [hop, hne]
  · have hop : req.operator.isComparison = false := by simpa using hop
    by_cases hkey : req.key = latestPackageRevisionKey
    · rw [requirementHolds_latest hkey hop, Requirement.matches, hkey]
      cases hx : x.latest
      · simp [hop, and_comm]
      · rw [lookup_latest hx]
        simp [hop, and_comm]
    · rw [requirementHolds_label hkey hop]
      cases req.matches (getPkgRevLabels x) <;> simp [hop, hkey]

end Requirement

/-! The whole selector -/

theorem labelsCondition_holds (sel : Selector) (x : PkgRevRow) :
    (labelsCondition (some sel) x).holds = sel.all (requirementHolds · x) := by
  simp only [labelsCondition, labelSelectorToJSONBClauses]
  induction sel with
  | nil => rfl
  | cons req sel ih =>
    rw [List.all_cons, ← ih, requirementHolds]
    cases h : labelClause req with
    | none | some => simp [h]

/-- How the query reads the selector on the row makes no difference: it reads every
    requirement as it is meant, or the row fails one that it reads so, or the row is let
    through by one and stopped by another. -/
def SameReading (sel : Selector) (x : PkgRevRow) : Prop :=
  (∀ req ∈ sel, ¬ Loosened req x ∧ ¬ Tightened req x) ∨
  (∃ req ∈ sel, ¬ Loosened req x ∧ req.matches (getPkgRevLabels x) = false) ∨
  (∃ req ∈ sel, Loosened req x) ∧ ∃ req ∈ sel, Tightened req x

theorem all_eq_iff_sameReading (sel : Selector) (x : PkgRevRow) :
    sel.all (requirementHolds · x) = sel.matches (getPkgRevLabels x) ↔ SameReading sel x := by
  simp only [SameReading, reading_iff.1, reading_iff.2, Selector.matches]
  rw [Bool.eq_iff_iff, List.all_eq_true, List.all_eq_true]
  grind

/-- **The query selects the rows that match the selector exactly when, on every row, its
    reading of the requirements makes no difference.** -/
theorem label_where_iff (t : PkgRevTable) (label : Option Selector) :
    (∀ x ∈ t.rows, x ∈ selectByLabels t label ↔ matchesLabels label x = true) ↔
      ∀ x ∈ t.rows, ∀ sel, label = some sel → SameReading sel x := by
  apply forall₂_congr
  intro x hx
  rw [selectByLabels, List.mem_filter, and_iff_right hx]
  cases label with
  | none => simp [labelsCondition, matchesLabels]
  | some sel =>
    rw [labelsCondition_holds, matchesLabels, ← Bool.eq_iff_iff, all_eq_iff_sameReading]
    simp

def unlabelledRow : PkgRevRow where
  namesp := "ns"
  name := "repo.pkg.v1"
  packageName := "repo.pkg"
  revision := 0
  lifecycle := .draft

/-- The selector `!app`. -/
def lacksApp : Selector := [⟨"app", .doesNotExist, [], rfl⟩]

/-- **A revision without labels lacks the label `app`, but the query for what lacks it
    does not find it.** -/
theorem missing_label_not_found :
    let t : PkgRevTable := ⟨[unlabelledRow], by simp⟩
    matchesLabels (some lacksApp) unlabelledRow = true ∧
      labelsCondition (some lacksApp) unlabelledRow = none ∧
      unlabelledRow ∈ t.rows ∧ unlabelledRow ∉ selectByLabels t (some lacksApp) := by
  decide +kernel

end Porch.Db
