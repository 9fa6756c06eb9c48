import Porch.Db.LabelFilter
import Porch.Git.RefSpec
import Porch.Key.RoundTrip
import Porch.Registry.FieldSelector

/- The WHERE clauses of list requests, `pkg/cache/dbcache/dbsqlfiltering.go`.

     filter2SubClausePrLabels  addPrLabels (Db.LabelFilter has its text)

   The clause is put together by formatting. What it is meant to be is a conjunction of
   comparisons, each a list of pieces in which every value is one string constant
   (`prComparisons`, `pkgComparisons`). It is read as that exactly when no value of the
   key holds a quote (`where_clause_read_iff`): labels are restricted in their characters,
   lifecycles are fixed, and the labels of the Kptfile are the only values that are
   escaped. -/
namespace Porch.Db.Where

open Go Sql K8s Git Registry Piece

/-! The text -/

def addSubClause (whereStatement subClause : Str) (first : Bool) : Str × Bool :=
  if first then (whereStatement ++ subClause, false)
  else (whereStatement ++ "AND " ++ subClause, false)

def filter2SubClauseStr (whereStatement filterField column : Str) (first : Bool) : Str × Bool :=
  if filterField = [] then (whereStatement, first)
  else
    addSubClause whereStatement (column ++ "='" ++ filterField ++ "'\n") first

def filter2SubClausePkgName (whereStatement packageName column : Str) (first : Bool) :
    Str × Bool :=
  if packageName = [] then (whereStatement, first)
  else
    addSubClause whereStatement
      ("split_part(" ++ column ++ ", '.', -1)='" ++ packageName ++ "'\n") first

def filter2SubClauseInt (whereStatement : Str) (filterField : Int) (column : Str) (first : Bool) :
    Str × Bool :=
  if filterField = 0 then (whereStatement, first)
  else
    addSubClause whereStatement (column ++ "=" ++ revision2Str filterField ++ "\n") first

def workspacePackageColumn (nameColumn : Str) : Str :=
  let idx := lastIndex ['.'] nameColumn
  if 0 ≤ idx then nameColumn.take (idx + 1).toNat ++ "package_k8s_name"
  else "package_k8s_name"

def filter2SubClauseWorkspace (whereStatement filterField column : Str) (first : Bool) :
    Str × Bool :=
  if filterField = [] then (whereStatement, first)
  else
    addSubClause whereStatement
      ("substring(" ++ column ++ " from length(" ++ workspacePackageColumn column ++
        ")+2)='" ++ filterField ++ "'\n") first

def filter2SubClauseLifecycle (whereStatement : Str) (filterField : List Lifecycle) (column : Str)
    (first : Bool) : Str × Bool :=
  if filterField = [] then (whereStatement, first)
  else
    addSubClause whereStatement
      ('(' :: " OR ".toList.intercalate (filterField.map fun lifecycle =>
        column ++ "='".toList ++ lifecycleText lifecycle ++ "'".toList) ++ [')']) first

/-- `filter2SubClausePrLabels`. -/
def addPrLabels (whereStatement : Str) (label : Option Selector) (first : Bool) : Str × Bool :=
  match filter2SubClausePrLabels label with
  | [] => (whereStatement, first)
  | combinedClause => addSubClause whereStatement combinedClause first

def kptfileLabelsPath : Str := "package_revisions.spec::jsonb->'packageMetadata'->'labels'"

def filter2SubClauseKptfileLabels (whereStatement : Str) (filterLabels : Labels) (first : Bool) :
    Str × Bool :=
  if filterLabels = [] then (whereStatement, first)
  else
    addSubClause whereStatement
      ('(' :: " AND ".toList.intercalate (filterLabels.map fun entry =>
        jsonbContainsClause kptfileLabelsPath entry.1 entry.2) ++ [')']) first

def repoSubClauses (repoKey : RepositoryKey) : Str × Bool :=
  let (w, first) := filter2SubClauseStr [] repoKey.namesp "repositories.k8s_name_space" true
  let (w, first) := filter2SubClauseStr w repoKey.name "repositories.k8s_name" first
  let (w, first) := filter2SubClauseStr w repoKey.path "repositories.directory" first
  filter2SubClauseStr w repoKey.placeholderWSname "repositories.default_ws_name" first

def packageSubClauses (pkgKey : PackageKey) : Str × Bool :=
  let (w, first) := repoSubClauses pkgKey.repoKey
  let (w, first) := filter2SubClausePkgName w pkgKey.package "packages.k8s_name" first
  filter2SubClauseStr w pkgKey.path "packages.package_path" first

def whereClause (whereStatement : Str) : Str :=
  if whereStatement = [] then whereStatement else "WHERE\n" ++ whereStatement

def pkgListFilter2WhereClause (filter : ListPackageFilter) : Str :=
  whereClause (packageSubClauses filter.key).1

def prListFilter2WhereClause (filter : ListPackageRevisionFilter) : Str :=
  let (w, first) := packageSubClauses filter.key.pkgKey
  let (w, first) := filter2SubClauseInt w filter.key.revision "package_revisions.revision" first
  let (w, first) :=
    filter2SubClauseWorkspace w filter.key.workspaceName "package_revisions.k8s_name" first
  let (w, first) :=
    filter2SubClauseLifecycle w filter.lifecycles "package_revisions.lifecycle" first
  let (w, first) := addPrLabels w filter.label first
  whereClause (filter2SubClauseKptfileLabels w filter.kptfileLabels first).1

/-! What it is meant to be -/

def isText (column value : Str) : List Piece :=
  [.code (column ++ "="), .bare value, .code "\n"]

def packageNameIs (column value : Str) : List Piece :=
  [.code ("split_part(" ++ column ++ ", "), .bare ".", .code ", -1)=",
    .bare value, .code "\n"]

def isNumber (column : Str) (value : Int) : List Piece :=
  [.code (column ++ "=" ++ revision2Str value ++ "\n")]

def workspaceIs (column value : Str) : List Piece :=
  [.code ("substring(" ++ column ++ " from length(" ++ workspacePackageColumn column ++
    ")+2)="), .bare value, .code "\n"]

def lifecycleIsOneOf (column : Str) (lifecycles : List Lifecycle) : List Piece :=
  .code ('(' :: column ++ "=") ::
    bareList (" OR " ++ column ++ "=") [')'] (lifecycles.map lifecycleText)

/-- `package_revisions.meta::jsonb->'labels'`. -/
def prLabelsPieces : List Piece :=
  [.code "package_revisions.meta::jsonb->", .bare "labels"]

/-- `package_revisions.spec::jsonb->'packageMetadata'->'labels'`. -/
def kptfileLabelsPieces : List Piece :=
  [.code "package_revisions.spec::jsonb->", .bare "packageMetadata",
    .code "->", .bare "labels"]

def containsEntry (object : List Piece) (key value : Str) : List Piece :=
  .code ['('] :: object ++
    [.code " @> ", .escaped (Json.marshalEntry key value), .code [')']]

def clausePieces : Clause → List Piece
  | .labelIs key value => containsEntry prLabelsPieces key value
  | .labelIsNot key value =>
    .code "((" :: prLabelsPieces ++
      [.code "->>", .bare key, .code ") IS NULL OR "] ++ prLabelsPieces ++
      [.code "->>", .bare key, .code " != ", .bare value, .code ")"]
  | .labelIn key values =>
    .code ['('] :: [.code " OR "].intercalate (values.map (containsEntry prLabelsPieces key)) ++
      [.code [')']]
  | .labelNotIn key values =>
    .code "((" :: prLabelsPieces ++
      [.code "->>", .bare key, .code ") IS NULL OR "] ++ prLabelsPieces ++
      [.code "->>", .bare key, .code " NOT IN ("] ++
      bareList ", " "))" values
  | .hasLabel key => .code ['('] :: prLabelsPieces ++ [.code " ? ", .bare key, .code [')']]
  | .lacksLabel key =>
    .code "(NOT (" :: prLabelsPieces ++ [.code " ? ", .bare key, .code "))"]
  | .latestIs true => [.code "(package_revisions.latest = TRUE)"]
  | .latestIs false => [.code "(package_revisions.latest = FALSE)"]
  | .always => [.code "TRUE"]

/-- Comparisons that all have to hold, in brackets. -/
def allOf (comparisons : List (List Piece)) : List Piece :=
  .code ['('] :: [.code " AND "].intercalate comparisons ++ [.code [')']]

def repoComparisons (k : RepositoryKey) : List (List Piece) :=
  (if k.namesp = [] then [] else [isText "repositories.k8s_name_space" k.namesp]) ++
  (if k.name = [] then [] else [isText "repositories.k8s_name" k.name]) ++
  (if k.path = [] then [] else [isText "repositories.directory" k.path]) ++
  (if k.placeholderWSname = [] then []
    else [isText "repositories.default_ws_name" k.placeholderWSname])

def packageComparisons (k : PackageKey) : List (List Piece) :=
  repoComparisons k.repoKey ++
  (if k.package = [] then [] else [packageNameIs "packages.k8s_name" k.package]) ++
  (if k.path = [] then [] else [isText "packages.package_path" k.path])

def labelComparisons : Option Selector → List (List Piece)
  | none => []
  | some sel =>
    match labelSelectorToJSONBClauses sel with
    | [] => []
    | cs => [allOf (cs.map clausePieces)]

/-- The comparisons that a filter of package revisions asks for. -/
def prComparisons (f : ListPackageRevisionFilter) : List (List Piece) :=
  packageComparisons f.key.pkgKey ++
  (if f.key.revision = 0 then []
    else [isNumber "package_revisions.revision" f.key.revision]) ++
  (if f.key.workspaceName = [] then []
    else [workspaceIs "package_revisions.k8s_name" f.key.workspaceName]) ++
  (if f.lifecycles = [] then []
    else [lifecycleIsOneOf "package_revisions.lifecycle" f.lifecycles]) ++
  labelComparisons f.label ++
  (if f.kptfileLabels = [] then []
    else [allOf (f.kptfileLabels.map fun entry =>
      containsEntry kptfileLabelsPieces entry.1 entry.2)])

/-- The comparisons that a filter of packages asks for. -/
def pkgComparisons (f : ListPackageFilter) : List (List Piece) := packageComparisons f.key

/-- The conjunction of comparisons, as a WHERE clause. -/
def conjunction (comparisons : List (List Piece)) : List Piece :=
  if comparisons = [] then []
  else .code "WHERE\n" :: [.code "AND "].intercalate comparisons

/-- The text is read as the conjunction of the comparisons, every value one string
    constant. -/
def ReadsAs (text : Str) (comparisons : List (List Piece)) : Prop :=
  lex text = some ((conjunction comparisons).flatMap tokens)

/-! The text is that of the comparisons -/

section Text

variable {cs : List (List Piece)} {w : Str} {first : Bool}

def text (ps : List Piece) : Str := ps.flatMap render

/-- The statement so far is the conjunction of some comparisons. -/
structure Holds (cs : List (List Piece)) (st : Str × Bool) : Prop where
  statement : st.1 = "AND ".toList.intercalate (cs.map text)
  first : st.2 = decide (cs = [])

theorem intercalate_concat {α : Type} (sep x : List α) {xs : List (List α)} (h : xs ≠ []) :
    sep.intercalate (xs ++ [x]) = sep.intercalate xs ++ sep ++ x := by
  induction xs with
  | nil => exact absurd rfl h
  | cons y ys ih =>
    cases ys with
    | nil => simp [List.intercalate_cons_cons]
    | cons z zs =>
      rw [List.cons_append, List.cons_append, List.intercalate_cons_cons, ← List.cons_append,
        ih (by simp), List.intercalate_cons_cons]
      simp

theorem Holds.add (h : Holds cs (w, first)) (c : List Piece) :
    Holds (cs ++ [c]) (addSubClause w (text c) first) := by
  have hw : w = _ := h.statement
  have hfirst : first = decide (cs = []) := h.first
  rw [hw, hfirst]
  unfold addSubClause
  by_cases hcs : cs = []
  · subst hcs
    exact ⟨by simp, by simp⟩
  · rw [decide_eq_false hcs]
    refine ⟨?_, by simp⟩
    rw [List.map_append, List.map_singleton, intercalate_concat _ _ (by simpa using hcs)]
    simp

/-- A sub-clause that is there unless a field is empty. -/
theorem Holds.addUnless (h : Holds cs (w, first)) {p : Prop} [Decidable p] {sub : Str}
    {c : List Piece} (hsub : ¬ p → sub = text c) :
    Holds (cs ++ if p then [] else [c]) (if p then (w, first) else addSubClause w sub first) := by
  by_cases hp : p
  · simpa [hp] using h
  · simpa [hp, hsub hp] using h.add c

theorem text_isText (column value : Str) :
    column ++ "='" ++ value ++ "'\n" = text (isText column value) := by
  simp [isText, text, render]

theorem text_packageNameIs (column value : Str) :
    "split_part(" ++ column ++ ", '.', -1)='" ++ value ++ "'\n" =
      text (packageNameIs column value) := by
  simp [packageNameIs, text, render]

theorem text_workspaceIs (column value : Str) :
    "substring(" ++ column ++ " from length(" ++ workspacePackageColumn column ++
        ")+2)='" ++ value ++ "'\n" = text (workspaceIs column value) := by
  simp [workspaceIs, text, render]

theorem intercalate_map_append {α : Type} (sep front : List α) {xs : List (List α)} (h : xs ≠ []) :
    sep.intercalate (xs.map (front ++ ·)) = front ++ (sep ++ front).intercalate xs := by
  induction xs with
  | nil => exact absurd rfl h
  | cons y ys ih =>
    cases ys with
    | nil => simp
    | cons z zs =>
      rw [List.map_cons, List.map_cons, List.intercalate_cons_cons, ← List.map_cons, ih (by simp),
        List.intercalate_cons_cons]
      simp

theorem text_lifecycleIsOneOf (column : Str) {ls : List Lifecycle} (h : ls ≠ []) :
    '(' :: " OR ".toList.intercalate (ls.map fun lifecycle =>
        column ++ "='".toList ++ lifecycleText lifecycle ++ "'".toList) ++ [')'] =
      text (lifecycleIsOneOf column ls) := by
  have hone : (fun l => column ++ "='".toList ++ lifecycleText l ++ "'".toList) =
      fun l => (column ++ "=".toList) ++ (bare (lifecycleText l)).render := by
    funext l
    simp [render]
  have hmap : ls.map (fun l => (column ++ "=".toList) ++ (bare (lifecycleText l)).render) =
      (ls.map fun l => (bare (lifecycleText l)).render).map ((column ++ "=".toList) ++ ·) := by
    rw [List.map_map]
    rfl
  rw [hone, hmap, intercalate_map_append _ _ (by simpa using h), text, lifecycleIsOneOf,
    List.flatMap_cons, render_bareList, List.map_map]
  simp [render, Function.comp_def]

theorem text_containsEntry (object : List Piece) (key value : Str) :
    jsonbContainsClause (text object) key value = text (containsEntry object key value) := by
  simp [containsEntry, jsonbContainsClause, text, render]

theorem text_kptfileLabels : text kptfileLabelsPieces = kptfileLabelsPath := by decide

theorem text_prLabels : text prLabelsPieces = Clause.jsonbPath := by decide

theorem jsonbContains_eq (key : Str) :
    Clause.jsonbContains key = fun value => text (containsEntry prLabelsPieces key value) := by
  funext value
  rw [Clause.jsonbContains, ← text_prLabels, text_containsEntry]

theorem text_clausePieces (c : Clause) : c.render = text (clausePieces c) := by
  have hquoted : Clause.quoted = fun v => (bare v).render := rfl
  cases c with
  | labelIs key value =>
    show Clause.jsonbContains key value = text (containsEntry prLabelsPieces key value)
    rw [jsonbContains_eq]
  | labelIn key values =>
    show '(' :: " OR ".toList.intercalate (values.map (Clause.jsonbContains key)) ++ [')'] =
      text (.code ['('] ::
        [.code " OR ".toList].intercalate (values.map (containsEntry prLabelsPieces key)) ++
          [.code [')']])
    simp only [text, List.flatMap_cons, List.flatMap_append, render_intercalate, List.map_map,
      jsonbContains_eq]
    simp [render, Function.comp_def]
  | labelIsNot key value =>
    show "((".toList ++ Clause.jsonbPath ++ "->>".toList ++ Clause.quoted key ++
      ") IS NULL OR ".toList ++ Clause.jsonbPath ++ "->>".toList ++ Clause.quoted key ++
      " != ".toList ++ Clause.quoted value ++ ")".toList = text (.code "((".toList :: _ ++ _ ++ _ ++ _)
    rw [← text_prLabels, hquoted]
    simp [text, render]
  | labelNotIn key values =>
    show "((".toList ++ Clause.jsonbPath ++ "->>".toList ++ Clause.quoted key ++
      ") IS NULL OR ".toList ++ Clause.jsonbPath ++ "->>".toList ++ Clause.quoted key ++
      " NOT IN (".toList ++ ", ".toList.intercalate (values.map Clause.quoted) ++ "))".toList =
      text (.code "((".toList :: _ ++ _ ++ _ ++ _ ++ bareList ", ".toList "))".toList values)
    simp only [← text_prLabels, hquoted, text, List.flatMap_append, List.flatMap_cons,
      render_bareList]
    simp [render]
  | hasLabel key =>
    show '(' :: Clause.jsonbPath ++ " ? ".toList ++ Clause.quoted key ++ [')'] =
      text (.code ['('] :: _ ++ _)
    rw [← text_prLabels, hquoted]
    simp [text, render]
  | lacksLabel key =>
    show "(NOT (".toList ++ Clause.jsonbPath ++ " ? ".toList ++ Clause.quoted key ++ "))".toList =
      text (.code "(NOT (".toList :: _ ++ _)
    rw [← text_prLabels, hquoted]
    simp [text, render]
  | latestIs b => cases b <;> exact (List.append_nil _).symm
  | always => exact (List.append_nil _).symm

theorem text_allOf (cs : List (List Piece)) :
    '(' :: " AND ".toList.intercalate (cs.map text) ++ [')'] = text (allOf cs) := by
  have htext : text = fun ps => ps.flatMap render := rfl
  simp only [allOf, htext, List.flatMap_cons, List.flatMap_append, render_intercalate]
  simp [render]

theorem Holds.str (h : Holds cs (w, first)) (field column : Str) :
    Holds (cs ++ if field = [] then [] else [isText column field])
      (filter2SubClauseStr w field column first) :=
  h.addUnless fun _ => text_isText column field

theorem holds_repo (k : RepositoryKey) : Holds (repoComparisons k) (repoSubClauses k) := by
  have hstart : Holds [] ([], true) := ⟨rfl, rfl⟩
  exact (((hstart.str _ _).str _ _).str _ _).str _ _

theorem holds_package (k : PackageKey) : Holds (packageComparisons k) (packageSubClauses k) := by
  have hname := (holds_repo k.repoKey).addUnless (p := k.package = []) fun _ =>
    text_packageNameIs "packages.k8s_name".toList k.package
  exact hname.str k.path "packages.package_path".toList

theorem text_labelComparisons (label : Option Selector) :
    filter2SubClausePrLabels label = [] ∧ labelComparisons label = [] ∨
      ∃ c, filter2SubClausePrLabels label = text c ∧ text c ≠ [] ∧ labelComparisons label = [c] := by
  cases label with
  | none => exact .inl ⟨rfl, rfl⟩
  | some sel =>
    simp only [filter2SubClausePrLabels, labelComparisons]
    cases hcs : labelSelectorToJSONBClauses sel with
    | nil => exact .inl ⟨rfl, rfl⟩
    | cons c cs =>
      refine .inr ⟨allOf ((c :: cs).map clausePieces), ?_, ?_, rfl⟩
      · have hmap : (c :: cs).map Clause.render = ((c :: cs).map clausePieces).map text := by
          rw [List.map_map]
          exact List.map_congr_left fun c _ => text_clausePieces c
        show '(' :: " AND ".toList.intercalate ((c :: cs).map Clause.render) ++ [')'] = _
        rw [hmap, text_allOf]
      · rw [← text_allOf]
        exact List.cons_ne_nil _ _

theorem Holds.labels (h : Holds cs (w, first)) (label : Option Selector) :
    Holds (cs ++ labelComparisons label) (addPrLabels w label first) := by
  unfold addPrLabels
  rcases text_labelComparisons label with ⟨htext, hcs⟩ | ⟨c, htext, hne, hcs⟩
  · rw [htext, hcs, List.append_nil]
    exact h
  · rw [htext, hcs]
    split
    · next hnil => exact absurd hnil hne
    · exact h.add c

theorem text_conjunction {st : Str × Bool} (h : Holds cs st) (hne : ∀ c ∈ cs, text c ≠ []) :
    whereClause st.1 = text (conjunction cs) := by
  unfold whereClause conjunction
  rw [h.statement]
  by_cases hcs : cs = []
  · simp [hcs, text]
  · obtain ⟨c, cs, rfl⟩ := List.exists_cons_of_ne_nil hcs
    have hstmt : "AND ".toList.intercalate ((c :: cs).map text) ≠ [] := by
      have hc := hne c List.mem_cons_self
      cases cs with
      | nil => simpa using hc
      | cons d ds =>
        rw [List.map_cons, List.map_cons, List.intercalate_cons_cons]
        simp
    have htext : text = fun ps => ps.flatMap render := rfl
    rw [if_neg hstmt, if_neg hcs, htext]
    simp only [List.flatMap_cons, render_intercalate]
    rfl

end Text

/-! The comparisons are well put together -/

/-- Code follows every value, and there is some text. -/
structure Good (c : List Piece) : Prop where
  closed : Closed c
  text : text c ≠ []

variable {s column : Str} {ps : List Piece}

theorem good_of_code (hs : s ≠ []) (h : Closed (.code s :: ps)) : Good (.code s :: ps) :=
  ⟨h, by simp [text, render, hs]⟩

section

variable (h : '\'' ∉ column)
include h

theorem good_isText (value : Str) : Good (isText column value) := by
  refine good_of_code (by simp) ⟨by simpa using h, ⟨_, _, ?_, rfl⟩, ?_, trivial⟩
  · decide
  · decide

theorem good_packageNameIs (value : Str) : Good (packageNameIs column value) := by
  refine good_of_code (by simp) ⟨by simpa using h, ⟨_, _, ?_, rfl⟩, ?_, ⟨_, _, ?_, rfl⟩, ?_, trivial⟩
  all_goals decide

theorem good_isNumber (value : Int) : Good (isNumber column value) := by
  have hdigits : ∀ n : Nat, '\'' ∉ Nat.toDigits 10 n := by
    intro n hmem
    have hdigit := isDigit_of_mem_toDigits hmem
    cases hdigit
  have htext : '\'' ∉ revision2Str value := by
    cases value with
    | ofNat n => exact revision2Str_natCast n ▸ hdigits n
    | negSucc n =>
      rw [revision2Str_negSucc, List.mem_cons, not_or]
      exact ⟨by decide, hdigits (n + 1)⟩
  exact good_of_code (by simp) ⟨by simp [h, htext], trivial⟩

theorem good_workspaceIs
    (hpkg : '\'' ∉ workspacePackageColumn column) (value : Str) : Good (workspaceIs column value) := by
  refine good_of_code (by simp) ⟨by simp [h, hpkg], ⟨_, _, ?_, rfl⟩, ?_, trivial⟩
  all_goals decide

theorem good_lifecycleIsOneOf (ls : List Lifecycle) : Good (lifecycleIsOneOf column ls) :=
  good_of_code (by simp) ⟨by simpa using h,
    closed_bareList ⟨by simp, by simpa using h⟩ ⟨by simp, by simp⟩ _⟩

end

theorem good_allOf {cs : List (List Piece)} (h : ∀ c ∈ cs, Closed c) : Good (allOf cs) :=
  good_of_code (by simp) ⟨by simp, (Closed.intercalate (by decide) h).append ⟨by simp, trivial⟩⟩

theorem closed_containsEntry (object : List Piece) (h : ∀ s ps, s ≠ [] → Closed (.code s :: ps) →
    Closed (object ++ .code s :: ps)) (key value : Str) : Closed (containsEntry object key value) := by
  refine ⟨by simp, h _ _ (by decide) ⟨by decide, ⟨_, _, by simp, rfl⟩, by simp, trivial⟩⟩

theorem closed_prLabels (hs : s ≠ []) (h : Closed (.code s :: ps)) :
    Closed (prLabelsPieces ++ .code s :: ps) :=
  ⟨by decide, ⟨s, ps, hs, rfl⟩, h⟩

theorem closed_kptfileLabels (hs : s ≠ []) (h : Closed (.code s :: ps)) :
    Closed (kptfileLabelsPieces ++ .code s :: ps) :=
  ⟨by decide, ⟨_, _, by decide, rfl⟩, by decide, ⟨s, ps, hs, rfl⟩, h⟩

/-- `... ->> 'key') IS NULL OR ... ->> 'key'`, before the comparison of a value. -/
theorem closed_labelText (key : Str) (hs : s ≠ []) (h : Closed (.code s :: ps)) :
    Closed (.code "((" :: prLabelsPieces ++
      [.code "->>", .bare key, .code ") IS NULL OR "] ++ prLabelsPieces ++
      .code "->>" :: .bare key :: .code s :: ps) := by
  have hsecond : Closed (prLabelsPieces ++ .code "->>" :: .bare key :: .code s :: ps) :=
    closed_prLabels (by decide) ⟨by decide, ⟨s, ps, hs, rfl⟩, h⟩
  have hfirst : Closed (.code "((" :: prLabelsPieces ++
      [.code "->>", .bare key, .code ") IS NULL OR "]) :=
    ⟨by decide, closed_prLabels (by decide) ⟨by decide, ⟨_, _, by decide, rfl⟩, by decide, trivial⟩⟩
  rw [List.append_assoc]
  exact hfirst.append hsecond

theorem closed_clausePieces (c : Clause) : Closed (clausePieces c) := by
  have hcontains := closed_containsEntry prLabelsPieces fun s ps => closed_prLabels
  have hkey : ∀ (key s : Str), s ≠ [] → '\'' ∉ s → Closed [.code " ? ", .bare key, .code s] :=
    fun key s hs hq => ⟨by decide, ⟨s, [], hs, rfl⟩, hq, trivial⟩
  cases c with
  | labelIs key value => exact hcontains key value
  | labelIn key values =>
    refine ⟨by simp, (Closed.intercalate (by decide) fun ps hps => ?_).append ⟨by simp, trivial⟩⟩
    obtain ⟨v, -, rfl⟩ := List.mem_map.mp hps
    exact hcontains key v
  | labelIsNot key value =>
    exact closed_labelText key (by decide)
      ⟨by decide, ⟨_, _, by decide, rfl⟩, by decide, trivial⟩
  | labelNotIn key values =>
    have hopen : Closed (.code " NOT IN (" :: bareList ", " "))" values) :=
      ⟨by decide, closed_bareList (by decide) (by decide) values⟩
    have hall := closed_labelText key (by decide) hopen
    simpa [clausePieces] using hall
  | hasLabel key => exact ⟨by simp, closed_prLabels (by decide) (hkey key _ (by simp) (by simp))⟩
  | lacksLabel key =>
    exact ⟨by decide, closed_prLabels (by decide) (hkey key _ (by decide) (by decide))⟩
  | latestIs b => cases b <;> exact ⟨by decide, trivial⟩
  | always => exact ⟨by decide, trivial⟩

theorem good_repo (k : RepositoryKey) : ∀ c ∈ repoComparisons k, Good c := by
  intro c hc
  simp only [repoComparisons, List.mem_append, List.mem_ite_nil_left, List.mem_singleton] at hc
  rcases hc with ((⟨-, rfl⟩ | ⟨-, rfl⟩) | ⟨-, rfl⟩) | ⟨-, rfl⟩
  all_goals exact good_isText (by decide) _

theorem good_package (k : PackageKey) : ∀ c ∈ packageComparisons k, Good c := by
  intro c hc
  simp only [packageComparisons, List.mem_append, List.mem_ite_nil_left, List.mem_singleton] at hc
  rcases hc with (hc | ⟨-, rfl⟩) | ⟨-, rfl⟩
  · exact good_repo _ c hc
  · exact good_packageNameIs (by decide) _
  · exact good_isText (by decide) _

theorem good_labels (label : Option Selector) : ∀ c ∈ labelComparisons label, Good c := by
  intro c hc
  unfold labelComparisons at hc
  split at hc
  · cases hc
  split at hc
  · cases hc
  · rw [List.mem_singleton.mp hc]
    refine good_allOf fun c hc => ?_
    obtain ⟨c, -, rfl⟩ := List.mem_map.mp hc
    exact closed_clausePieces c

theorem good_pr (f : ListPackageRevisionFilter) : ∀ c ∈ prComparisons f, Good c := by
  intro c hc
  simp only [prComparisons, List.mem_append, List.mem_ite_nil_left, List.mem_singleton] at hc
  rcases hc with ((((hc | ⟨-, rfl⟩) | ⟨-, rfl⟩) | ⟨-, rfl⟩) | hc) | ⟨-, rfl⟩
  · exact good_package _ c hc
  · exact good_isNumber (by decide) _
  · exact good_workspaceIs (by decide) (by decide) _
  · exact good_lifecycleIsOneOf (by decide) _
  · exact good_labels _ c hc
  · refine good_allOf fun c hc => ?_
    obtain ⟨entry, -, rfl⟩ := List.mem_map.mp hc
    exact closed_containsEntry _ (fun s ps => closed_kptfileLabels) entry.1 entry.2

/-- **A clause that is put together from comparisons is read as their conjunction exactly
    when no bare value holds a quote.** -/
theorem readsAs_iff {cs : List (List Piece)} {st : Str × Bool} (h : Holds cs st)
    (hgood : ∀ c ∈ cs, Good c) : ReadsAs (whereClause st.1) cs ↔ ∀ c ∈ cs, QuoteFree c := by
  have hclosed : Closed (conjunction cs) := by
    unfold conjunction
    split
    · trivial
    · exact ⟨by decide, Closed.intercalate (by decide) fun c hc => (hgood c hc).closed⟩
  unfold ReadsAs
  rw [text_conjunction h fun c hc => (hgood c hc).text, text, lex_render_iff hclosed]
  unfold conjunction
  split
  · next hnil => simp [hnil]
  · rw [quoteFree_code, quoteFree_intercalate]

/-! The values -/

section Values

/-- The comparison of a value, which is left out when there is none, is free of quotes
    when the value is. -/
theorem quoteFree_unless_empty {value : Str} {c : List Piece} (h : QuoteFree c ↔ '\'' ∉ value) :
    (∀ c' ∈ if value = [] then [] else [c], QuoteFree c') ↔ '\'' ∉ value := by
  by_cases hv : value = []
  · simp [hv]
  · simpa [hv] using h

theorem quoteFree_isText (column value : Str) : QuoteFree (isText column value) ↔ '\'' ∉ value := by
  simp [isText]

theorem quoteFree_packageNameIs (column value : Str) :
    QuoteFree (packageNameIs column value) ↔ '\'' ∉ value := by
  simp [packageNameIs]

theorem quoteFree_workspaceIs (column value : Str) :
    QuoteFree (workspaceIs column value) ↔ '\'' ∉ value := by
  simp [workspaceIs]

theorem quoteFree_lifecycles (column : Str) (ls : List Lifecycle) :
    QuoteFree (lifecycleIsOneOf column ls) := by
  simp only [lifecycleIsOneOf, quoteFree_code, quoteFree_bareList]
  intro v hv
  obtain ⟨l, -, rfl⟩ := List.mem_map.mp hv
  cases l <;> decide

theorem quoteFree_containsEntry {object : List Piece} (h : QuoteFree object) (key value : Str) :
    QuoteFree (containsEntry object key value) := by
  simp [containsEntry, h]

theorem quoteFree_allOf {cs : List (List Piece)} (h : ∀ c ∈ cs, QuoteFree c) :
    QuoteFree (allOf cs) := by
  simp only [allOf, List.cons_append, quoteFree_code, quoteFree_append, quoteFree_intercalate,
    quoteFree_nil, and_true]
  exact h

def isLabelChar (c : Char) : Bool := c.isAlphanum || ['-', '_', '.', '/'].contains c

/-- A selector as `NewRequirement` accepts it: keys are qualified names and values are
    label values. -/
def Validated (sel : Selector) : Prop :=
  ∀ req ∈ sel, req.key.all isLabelChar = true ∧ ∀ v ∈ req.values, v.all isLabelChar = true

theorem no_quote_of_labelChars {s : Str} (h : s.all isLabelChar = true) : '\'' ∉ s := by
  intro hmem
  have hchar := List.all_eq_true.mp h _ hmem
  revert hchar
  decide

/-- The values that a label clause puts between quotes as they are. -/
def bareValues : Clause → List Str
  | .labelIsNot key value => [key, value]
  | .labelNotIn key values => key :: values
  | .hasLabel key | .lacksLabel key => [key]
  | _ => []

theorem quoteFree_clausePieces {c : Clause} (h : ∀ v ∈ bareValues c, '\'' ∉ v) :
    QuoteFree (clausePieces c) := by
  have hpath : QuoteFree prLabelsPieces := by simp [prLabelsPieces]
  have hcontains := quoteFree_containsEntry hpath
  cases c with
  | labelIs key value => exact hcontains key value
  | labelIn key values =>
    simp only [clausePieces, List.cons_append, quoteFree_code, quoteFree_append,
      quoteFree_intercalate, quoteFree_nil, and_true]
    intro ps hps
    obtain ⟨v, -, rfl⟩ := List.mem_map.mp hps
    exact hcontains key v
  | labelIsNot key value =>
    have hkey := h key (by simp [bareValues])
    have hvalue := h value (by simp [bareValues])
    simp [clausePieces, hpath, hkey, hvalue]
  | labelNotIn key values =>
    have hkey := h key (by simp [bareValues])
    have hvalues : ∀ v ∈ values, '\'' ∉ v := fun v hv => h v (by simp [bareValues, hv])
    simp only [clausePieces, List.cons_append, List.append_assoc, quoteFree_code, quoteFree_append,
      quoteFree_bare, quoteFree_bareList, List.nil_append]
    exact ⟨hpath, hkey, hpath, hkey, hvalues⟩
  | hasLabel key | lacksLabel key =>
    have hkey := h key (by simp [bareValues])
    simp [clausePieces, hpath, hkey]
  | latestIs b => cases b <;> exact (quoteFree_code _).mpr quoteFree_nil
  | always => exact (quoteFree_code _).mpr quoteFree_nil

theorem bareValues_latest (op : Operator) (values : List Str) :
    bareValues (latestRevisionClause op values) = [] := by
  cases op <;> rfl

theorem bareValues_labelClause {req : Requirement} {c : Clause} (h : labelClause req = some c)
    {v : Str} (hv : v ∈ bareValues c) : v = req.key ∨ v ∈ req.values ∨ v = [] := by
  have hhead : req.values.headD [] ∈ req.values ∨ req.values.headD [] = [] := by
    cases req.values <;> simp
  unfold labelClause at h
  split at h
  · obtain rfl := Option.some.inj h
    simp [bareValues_latest] at hv
  · cases hop : req.operator <;> rw [hop] at h <;> simp only [Option.some.injEq, reduceCtorEq] at h
    all_goals
      subst h
      simp only [bareValues, List.mem_cons, List.not_mem_nil, or_false] at hv
    · exact .inl hv
    · rcases hv with rfl | rfl
      · exact .inl rfl
      · exact .inr hhead
    · rcases hv with rfl | hv
      · exact .inl rfl
      · exact .inr (.inl hv)
    · exact .inl hv

theorem quoteFree_labels {label : Option Selector} (h : ∀ sel, label = some sel → Validated sel) :
    ∀ c ∈ labelComparisons label, QuoteFree c := by
  intro c hc
  unfold labelComparisons at hc
  split at hc
  · cases hc
  next sel =>
    split at hc
    · cases hc
    · rw [List.mem_singleton.mp hc]
      refine quoteFree_allOf fun c hc => ?_
      obtain ⟨cl, hcl, rfl⟩ := List.mem_map.mp hc
      obtain ⟨req, hreq, hclause⟩ := List.mem_filterMap.mp hcl
      obtain ⟨hkey, hvalues⟩ := h sel rfl req hreq
      refine quoteFree_clausePieces fun v hv => ?_
      rcases bareValues_labelClause hclause hv with rfl | hmem | rfl
      · exact no_quote_of_labelChars hkey
      · exact no_quote_of_labelChars (hvalues v hmem)
      · exact List.not_mem_nil

theorem quoteFree_repo (k : RepositoryKey) : (∀ c ∈ repoComparisons k, QuoteFree c) ↔
      '\'' ∉ k.namesp ∧ '\'' ∉ k.name ∧ '\'' ∉ k.path ∧ '\'' ∉ k.placeholderWSname := by
  simp only [repoComparisons, List.forall_mem_append,
    quoteFree_unless_empty (quoteFree_isText _ _), and_assoc]

theorem quoteFree_package (k : PackageKey) : (∀ c ∈ packageComparisons k, QuoteFree c) ↔
      (∀ c ∈ repoComparisons k.repoKey, QuoteFree c) ∧ '\'' ∉ k.package ∧ '\'' ∉ k.path := by
  simp only [packageComparisons, List.forall_mem_append,
    quoteFree_unless_empty (quoteFree_isText _ _),
    quoteFree_unless_empty (quoteFree_packageNameIs _ _), and_assoc]

theorem quoteFree_pr {f : ListPackageRevisionFilter}
    (hlabel : ∀ sel, f.label = some sel → Validated sel) : (∀ c ∈ prComparisons f, QuoteFree c) ↔
      (∀ c ∈ packageComparisons f.key.pkgKey, QuoteFree c) ∧ '\'' ∉ f.key.workspaceName := by
  have hnum : ∀ c ∈ (if f.key.revision = 0 then []
      else [isNumber "package_revisions.revision" f.key.revision]), QuoteFree c := by
    split
    · simp
    · simp [isNumber]
  have hlcs : ∀ c ∈ (if f.lifecycles = [] then []
      else [lifecycleIsOneOf "package_revisions.lifecycle" f.lifecycles]), QuoteFree c := by
    split
    · simp
    · simpa using quoteFree_lifecycles _ _
  have hkptfile : ∀ c ∈ (if f.kptfileLabels = [] then []
      else [allOf (f.kptfileLabels.map fun entry =>
        containsEntry kptfileLabelsPieces entry.1 entry.2)]), QuoteFree c := by
    split
    · simp
    · rw [List.forall_mem_singleton]
      refine quoteFree_allOf fun c hc => ?_
      obtain ⟨entry, -, rfl⟩ := List.mem_map.mp hc
      exact quoteFree_containsEntry (by simp [kptfileLabelsPieces]) entry.1 entry.2
  simp only [prComparisons, List.forall_mem_append,
    quoteFree_unless_empty (quoteFree_workspaceIs _ _)]
  exact ⟨fun h => ⟨h.1.1.1.1.1, h.1.1.1.2⟩,
    fun h => ⟨⟨⟨⟨⟨h.1, hnum⟩, h.2⟩, hlcs⟩, quoteFree_labels hlabel⟩, hkptfile⟩⟩

end Values

/-! The clause of a request -/

theorem holds_pr (f : ListPackageRevisionFilter) :
    ∃ st, prListFilter2WhereClause f = whereClause st.1 ∧ Holds (prComparisons f) st := by
  refine ⟨_, rfl, ?_⟩
  have hnum := (holds_package f.key.pkgKey).addUnless (p := f.key.revision = 0) fun _ =>
    show _ = text (isNumber "package_revisions.revision".toList f.key.revision) by
      rw [text, isNumber, List.flatMap_singleton, render]
  have hws := hnum.addUnless (p := f.key.workspaceName = []) fun _ =>
    text_workspaceIs "package_revisions.k8s_name".toList f.key.workspaceName
  have hlife := hws.addUnless (p := f.lifecycles = []) fun hne =>
    text_lifecycleIsOneOf "package_revisions.lifecycle".toList hne
  refine (hlife.labels f.label).addUnless (p := f.kptfileLabels = []) fun _ => ?_
  have hmap : f.kptfileLabels.map (fun entry => jsonbContainsClause kptfileLabelsPath entry.1 entry.2) =
      (f.kptfileLabels.map fun entry => containsEntry kptfileLabelsPieces entry.1 entry.2).map text := by
    rw [List.map_map]
    refine List.map_congr_left fun entry _ => ?_
    rw [← text_kptfileLabels, text_containsEntry]
    rfl
  rw [hmap, text_allOf]

theorem no_quote_pkgPath {rules : ApiUtil.NameRules} {r : FieldRequirement} {x : Str}
    (h : writesPkgPath rules r = some x) : '\'' ∉ x := by
  unfold writesPkgPath at h
  split at h
  · obtain ⟨k, hk, rfl⟩ := Option.map_eq_some_iff.mp h
    have hok : pkgK8sName2Key rules [] r.value = .ok k := by
      unfold pkgNameKey at hk
      cases hname : pkgK8sName2Key rules [] r.value with
      | error e => simp [hname, Except.toOption] at hk
      | ok k' => simpa [hname, Except.toOption] using hk
    obtain ⟨mid, -, -, hvalid⟩ := pkgK8sName2Key_ok hok
    have hdir := (ApiUtil.validPkgObjName_eq_none.mp hvalid).1.2.1
    intro hmem
    have hrem : '\'' ∈ removeChar '/' k.path := List.mem_filter.mpr ⟨hmem, by decide⟩
    rcases hdir with hnil | ⟨-, hlabel⟩
    · simp [hnil] at hrem
    · have hchar := hlabel.mem_ok hrem
      revert hchar
      decide
  · cases h

/-- The clause for package revisions, for any filter whose label selector is
    accepted. -/
theorem pr_readsAs_iff {f : ListPackageRevisionFilter}
    (hlabel : ∀ sel, f.label = some sel → Validated sel) :
    ReadsAs (prListFilter2WhereClause f) (prComparisons f) ↔
      (∀ c ∈ packageComparisons f.key.pkgKey, QuoteFree c) ∧ '\'' ∉ f.key.workspaceName := by
  obtain ⟨st, htext, hholds⟩ := holds_pr f
  rw [htext, readsAs_iff hholds (good_pr f), quoteFree_pr hlabel]

theorem pkg_readsAs_iff (f : ListPackageFilter) :
    ReadsAs (pkgListFilter2WhereClause f) (pkgComparisons f) ↔
      ∀ c ∈ packageComparisons f.key, QuoteFree c :=
  readsAs_iff (holds_package f.key) (good_package f.key)

/-- **The WHERE clause of an accepted request is read as the conjunction of the intended
    comparisons, each value one string constant with that value, if and only if no value
    that is in force for the key holds a quote.** For packages the repository's own key
    takes the place of that of the filter. What is compared with the labels of the Kptfile
    is the JSON of the label. -/
theorem where_clause_read_iff (rules : ApiUtil.NameRules) : (∀ label fieldSelector namesp f,
      (∀ sel, label = some sel → Validated sel) →
      parsePackageRevisionFieldSelector rules label fieldSelector namesp = .ok f →
      (ReadsAs (prListFilter2WhereClause f) (prComparisons f) ↔
        '\'' ∉ (lastKey rules (fieldSelector.getD []) namesp).pkgKey.repoKey.namesp ∧
        '\'' ∉ (lastKey rules (fieldSelector.getD []) namesp).pkgKey.repoKey.name ∧
        '\'' ∉ (lastKey rules (fieldSelector.getD []) namesp).pkgKey.package ∧
        '\'' ∉ (lastKey rules (fieldSelector.getD []) namesp).pkgKey.path ∧
        '\'' ∉ (lastKey rules (fieldSelector.getD []) namesp).workspaceName)) ∧
    (∀ fieldSelector namesp f (repoKey : RepositoryKey),
      parsePackageFieldSelector rules fieldSelector namesp = .ok f →
      (ReadsAs (pkgListFilter2WhereClause { f with key.repoKey := repoKey })
          (pkgComparisons { f with key.repoKey := repoKey }) ↔
        ('\'' ∉ repoKey.namesp ∧ '\'' ∉ repoKey.name ∧ '\'' ∉ repoKey.path ∧
          '\'' ∉ repoKey.placeholderWSname) ∧
        '\'' ∉ (lastWrite (writesPkgPackage rules) (fieldSelector.getD [])).getD [])) ∧
    ∀ key value, Json.readEntry (Json.marshalEntry key value) = some (key, value) := by
  refine ⟨fun label fieldSelector namesp f hlabel hparse => ?_,
    fun fieldSelector namesp f repoKey hparse => ?_, Json.readEntry_marshalEntry⟩
  · have hparsed := parsed_from hparse
    rw [pr_readsAs_iff (hparsed.label ▸ hlabel), quoteFree_package, quoteFree_repo, hparsed.key]
    simp only [lastKey, List.not_mem_nil, not_false_eq_true, and_true, and_assoc]
  · obtain ⟨hpackage, hpath⟩ := parsedPackage_last hparse
    have hnoquote : '\'' ∉ f.key.path := by
      rw [hpath]
      cases hlast : lastWrite (writesPkgPath rules) (fieldSelector.getD []) with
      | none => exact List.not_mem_nil
      | some x =>
        obtain ⟨r, -, hw⟩ := List.mem_filterMap.mp (List.mem_of_getLast? hlast)
        exact no_quote_pkgPath hw
    rw [pkg_readsAs_iff, quoteFree_package, quoteFree_repo, ← hpackage]
    exact and_congr_right fun _ => and_iff_left hnoquote

/-- The request `spec.workspaceName=v1` in a namespace, and one for all packages of a
    repository. -/
theorem where_clause_read_sample : (∃ f, parsePackageRevisionFieldSelector .documented none
        (some [⟨"spec.workspaceName", .equals, "v1"⟩]) "ns" = .ok f ∧
      ReadsAs (prListFilter2WhereClause f) (prComparisons f)) ∧
    ∃ f : ListPackageFilter, parsePackageFieldSelector .documented none "ns" = .ok f ∧
      ReadsAs (pkgListFilter2WhereClause { f with key.repoKey := { name := "repo" } })
        (pkgComparisons { f with key.repoKey := { name := "repo" } }) :=
  ⟨⟨_, rfl, ((where_clause_read_iff .documented).1 none
      (some [⟨"spec.workspaceName", .equals, "v1"⟩]) "ns" _
      (fun _ h => by cases h) rfl).mpr (by decide +kernel)⟩,
    _, rfl, ((where_clause_read_iff .documented).2.1 none "ns" _
      { name := "repo" } rfl).mpr (by decide +kernel)⟩

/-- **A repository name with quotes in it ends its constant: the clause of a request in one
    namespace becomes a disjunction that every row of every namespace satisfies.** -/
theorem quote_ends_constant : ∃ f, parsePackageRevisionFieldSelector .documented none
        (some [⟨"spec.repository", .equals, "x' OR 'a'='a"⟩]) "ns" = .ok f ∧
      lex (prListFilter2WhereClause f) =
        some ([code "WHERE\nrepositories.k8s_name_space=", .bare "ns",
          .code "\nAND repositories.k8s_name=", .bare "x", .code " OR ",
          .bare "a", .code "=", .bare "a",
          .code "\n"].flatMap tokens) ∧
      ¬ ReadsAs (prListFilter2WhereClause f) (prComparisons f) := by
  refine ⟨_, rfl, by decide +kernel, ?_⟩
  unfold ReadsAs
  decide +kernel

end Porch.Db.Where
