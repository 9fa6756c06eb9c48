import Porch.Key.Types

/- What the functions of `api/util` do on names written as their components: the
   one specification lemma of each that the round trips between keys and object
   names are built on. -/
namespace Porch.ApiUtil

open Go List

/-! Valid parts -/

def IsLabel (s : Str) : Prop := dns1123LabelFmt s ∧ s.length ≤ 63

/-- An optional directory that `ValidateDirectoryName` accepts. -/
def DirOk (path : Str) : Prop :=
  removeChar '/' path = [] ∨ ¬ ['/', '/'] <:+: path ∧ IsLabel (removeChar '/' path)

section Valid

variable {rules : NameRules} {repo path pkg ws s : Str}

theorem IsLabel.ne_nil (h : IsLabel s) : s ≠ [] := by
  rintro rfl
  simp [IsLabel, dns1123LabelFmt] at h

theorem IsLabel.mem_ok {c : Char} (h : IsLabel s) (hc : c ∈ s) : isLowerAlnum c ∨ c = '-' := by
  have hfmt := h.1
  simp only [dns1123LabelFmt, Bool.and_eq_true, all_eq_true, Bool.or_eq_true,
    beq_iff_eq] at hfmt
  exact hfmt.1.1 c hc

theorem IsLabel.no_dot (h : IsLabel s) : '.' ∉ s := by
  intro hc
  have := h.mem_ok hc
  revert this
  decide

theorem IsLabel.no_slash (h : IsLabel s) : '/' ∉ s := by
  intro hc
  have := h.mem_ok hc
  revert this
  decide

theorem DirOk.no_dot (h : DirOk path) : '.' ∉ path := by
  intro hc
  have hmem : '.' ∈ removeChar '/' path := mem_filter.mpr ⟨hc, by decide⟩
  rcases h with h | ⟨-, h⟩
  · simp [h] at hmem
  · exact h.no_dot hmem

theorem validateK8SName_eq_none (rules : NameRules) (s : Str) :
    validateK8SName rules s = none ↔ IsLabel s := by
  rw [IsLabel, ← rules.label_ok]
  unfold validateK8SName
  split
  · next h => simp [h]
  · next errs h => simpa using h

theorem validateDirectoryName_eq_none (rules : NameRules) (path : Str) :
    validateDirectoryName rules path false = none ↔ DirOk path := by
  unfold DirOk IsLabel
  rw [← rules.label_ok]
  by_cases hnil : removeChar '/' path = []
  · simp [validateDirectoryName, hnil]
  · have hpos : 0 < (removeChar '/' path).length := length_pos_iff.mpr hnil
    simp only [validateDirectoryName, Bool.false_or, decide_eq_true hpos, if_true, hnil, false_or]
    by_cases hslash : ['/', '/'] <:+: path
    · simp [hslash]
    · simp only [hslash, if_false, nil_append, not_false_eq_true, true_and]
      split
      · next h => simp [h]
      · next errs h => simpa using h

theorem validateRepository_eq_none (rules : NameRules) (repo : Str) :
    validateRepository rules repo [] = none ↔ IsLabel repo := by
  have hdir : validateDirectoryName rules [] false = none := rfl
  rw [IsLabel, ← rules.label_ok]
  by_cases h : rules.isDNS1123Label repo = []
  · simp [validateRepository, h, hdir]
  · simp [validateRepository, h]

@[simp] theorem partErrs_eq_nil {part whole what : Str} {e : Option Str} :
    partErrs rules part whole what s e = [] ↔ e = none := by
  cases e <;> simp [partErrs]

theorem validPkgNamePart_eq_nil (rules : NameRules) (repo path pkg : Str) :
    validPkgNamePart rules repo path pkg = [] ↔ IsLabel repo ∧ DirOk path ∧ IsLabel pkg := by
  rw [← validateRepository_eq_none rules, ← validateDirectoryName_eq_none rules,
    ← validateK8SName_eq_none rules]
  unfold validPkgNamePart
  cases validateRepository rules repo [] <;> simp

theorem objNameErrs_eq_nil {what : Str} :
    objNameErrs rules what s = [] ↔ rules.isDNS1123Subdomain s = [] := by
  unfold objNameErrs
  split
  · next h => simp [h]
  · next errs h => simpa using h

/-- **What `ValidPkgObjName` accepts.** -/
theorem validPkgObjName_eq_none : validPkgObjName rules repo path pkg = none ↔
      (IsLabel repo ∧ DirOk path ∧ IsLabel pkg) ∧
        rules.isDNS1123Subdomain (composePkgObjName repo path pkg) = [] := by
  rw [← validPkgNamePart_eq_nil rules]
  unfold validPkgObjName
  by_cases h : validPkgNamePart rules repo path pkg = []
  · simp [h, objNameErrs_eq_nil]
  · simp [h]

/-- **What `ValidPkgRevObjName` accepts.** -/
theorem validPkgRevObjName_eq_none : validPkgRevObjName rules repo path pkg ws = none ↔
      ((IsLabel repo ∧ DirOk path ∧ IsLabel pkg) ∧ IsLabel ws) ∧
        rules.isDNS1123Subdomain (composePkgRevObjName repo path pkg ws) = [] := by
  rw [← validPkgNamePart_eq_nil rules, ← validateK8SName_eq_none rules]
  unfold validPkgRevObjName
  by_cases h : validPkgNamePart rules repo path pkg = [] ∧ validateK8SName rules ws = none
  · simp [h, objNameErrs_eq_nil]
  · simp [h]

end Valid

/-! Composition -/

section Compose

variable {repo path pkg ws : Str}

theorem no_dot_of_mem_splitOn {e : Str} (hdot : '.' ∉ path) (he : e ∈ path.splitOn '/') :
    '.' ∉ e := fun hc => hdot (by simpa [join_splitOn] using mem_join_of_mem (c := '/') he hc)

/-- The dotted path of a dot-free directory and a label is the directory's
    non-empty elements and the label, separated by dots. -/
theorem dottedPath_eq (hdot : '.' ∉ path) (hpkg : IsLabel pkg) :
    dottedPath path pkg = join '.' (pathElems path ++ [pkg]) := by
  have hplain : ∀ e ∈ path.splitOn '/', PlainElem e := fun e he =>
    plainElem_of_no_dot (no_dot_of_mem_splitOn hdot he)
  have hslash : ∀ e ∈ pathElems path ++ [pkg], '/' ∉ e :=
    forall_mem_append.mpr ⟨fun e he => not_mem_of_splitOn (mem_pathElems he).1,
      forall_mem_singleton.mpr hpkg.no_slash⟩
  have hparts : ∀ e ∈ pathElems path ++ [pkg], e ≠ [] ∧ '.' ∉ e :=
    forall_mem_append.mpr
      ⟨fun e he => ⟨(mem_pathElems he).2, no_dot_of_mem_splitOn hdot (mem_pathElems he).1⟩,
        forall_mem_singleton.mpr ⟨hpkg.ne_nil, hpkg.no_dot⟩⟩
  unfold dottedPath
  rw [joinPath_dir_leaf hplain (plainElem_of_no_dot hpkg.no_dot) hpkg.ne_nil hpkg.no_slash]
  have htrim : trim '.' (join '.' (pathElems path ++ [pkg])) = join '.' (pathElems path ++ [pkg]) :=
    trim_join (by simp) hparts
  have hreplace := replaceChar_join (b := '.') hslash
  split
  · -- a rooted path gives a leading dot, which is trimmed
    simp [hreplace, htrim]
  · simp [hreplace, htrim]

theorem composePkgObjName_eq (hrepo : repo ≠ []) (hdot : '.' ∉ path) (hpkg : IsLabel pkg) :
    composePkgObjName repo path pkg = join '.' (repo :: pathElems path ++ [pkg]) := by
  rw [composePkgObjName, if_neg (by simp [hrepo, hpkg.ne_nil]), dottedPath_eq hdot hpkg,
    cons_append, join_cons (by simp)]

theorem composePkgRevObjName_eq (hrepo : repo ≠ []) (hdot : '.' ∉ path) (hpkg : IsLabel pkg)
    (hws : ws ≠ []) : composePkgRevObjName repo path pkg ws =
      join '.' (repo :: pathElems path ++ [pkg]) ++ '.' :: ws := by
  rw [composePkgRevObjName, if_neg (by simp [hrepo, hpkg.ne_nil, hws]), dottedPath_eq hdot hpkg,
    cons_append, join_cons (by simp)]

end Compose

/-! Splitting -/

section Split

variable {d : Char}

theorem splitIn3OnDelimiter_of_not_mem {s : Str} (h : d ∉ s) :
    splitIn3OnDelimiter s d = (s, [], []) := by
  simp [splitIn3OnDelimiter, splitOn_eq_singleton h]

/-- Head, middle and tail of a name with at least two components. -/
theorem splitIn3OnDelimiter_join {s t : Str} {mid : List Str} (hs : d ∉ s)
    (hmid : ∀ p ∈ mid, d ∉ p) (ht : d ∉ t) :
    splitIn3OnDelimiter (join d (s :: mid ++ [t])) d = (s, join d mid, t) := by
  have hsplit : (join d (s :: mid ++ [t])).splitOn d = s :: mid ++ [t] :=
    splitOn_join (forall_mem_parts.mpr ⟨hs, hmid, ht⟩) (by simp)
  unfold splitIn3OnDelimiter
  rw [hsplit]
  match mid with
  | [] | [_] => simp
  | m :: m' :: rest =>
    -- the loop over the inner components
    have hdrop : (m' :: (rest ++ [t])).dropLast = m' :: rest := by
      rw [← cons_append, dropLast_concat]
    have hlast : (m' :: (rest ++ [t])).getLastD [] = t := by rw [← cons_append, getLastD_concat]
    have hloop := foldl_append_eq_join (c := d) m (m' :: rest)
    cases rest with
    | nil => exact congrArg (s, ·, t) hloop
    | cons r rs =>
      show (s, (m' :: (r :: rs ++ [t])).dropLast.foldl _ m, (m' :: (r :: rs ++ [t])).getLastD []) = _
      rw [hdrop, hloop, hlast]

theorem splitIn3OnDelimiter_two {s t : Str} (hs : d ∉ s) (ht : d ∉ t) :
    splitIn3OnDelimiter (s ++ d :: t) d = (s, [], t) := by
  simp [splitIn3OnDelimiter, splitOn_append_cons_self_of_not_mem hs,
    splitOn_eq_singleton ht]

end Split

/-! The workspace of a name -/

section Workspace

variable {a r ws name : Str}

theorem semverSuffix_mem (h : semverSuffix ('.' :: 'v' :: r)) {c : Char} (hc : c ∈ r) :
    isDigit c ∨ c = '.' := by
  simp only [semverSuffix, Bool.and_eq_true, all_eq_true, Bool.or_eq_true, beq_iff_eq] at h
  exact h.1 c hc

theorem exists_of_semverSuffix {t : Str} (h : semverSuffix t) : ∃ r, t = '.' :: 'v' :: r := by
  unfold semverSuffix at h
  split at h
  · exact ⟨_, rfl⟩
  · cases h

theorem tails_any_semverSuffix : name.tails.any semverSuffix ↔ ∃ a r, name = a ++ '.' :: 'v' :: r ∧
      semverSuffix ('.' :: 'v' :: r) := by
  simp only [any_eq_true, mem_tails]
  constructor
  · rintro ⟨t, ⟨a, rfl⟩, ht⟩
    obtain ⟨r, rfl⟩ := exists_of_semverSuffix ht
    exact ⟨a, r, rfl, ht⟩
  · rintro ⟨a, r, rfl, hr⟩
    exact ⟨_, ⟨a, rfl⟩, hr⟩

theorem getPRWorkspaceName_semver (h : semverSuffix ('.' :: 'v' :: r)) :
    getPRWorkspaceName (a ++ '.' :: 'v' :: r) = 'v' :: r := by
  have hno : ¬ ".v" <:+: 'v' :: r := by
    rintro ⟨x, y, hxy⟩
    cases x with
    | nil => simp at hxy
    | cons _ x =>
      simp only [cons_append, cons.injEq] at hxy
      have hv : 'v' ∈ r := by simp [← hxy.2]
      have := semverSuffix_mem h hv
      revert this
      decide
  have hidx : lastIndex ".v" (a ++ '.' :: 'v' :: r) = a.length :=
    lastIndex_append_cons a ⟨r, rfl⟩ hno
  have hany : (a ++ '.' :: 'v' :: r).tails.any semverSuffix :=
    tails_any_semverSuffix.mpr ⟨a, r, rfl, h⟩
  rw [getPRWorkspaceName, if_neg (by simp), if_pos hany, hidx]
  simp [drop_append]

theorem getPRWorkspaceName_plain (hws : '.' ∉ ws) (h : ¬ (a ++ '.' :: ws).tails.any semverSuffix) :
    getPRWorkspaceName (a ++ '.' :: ws) = ws := by
  have hno : ¬ ['.'] <:+: ws := fun hi => hws (hi.subset (by simp))
  have hidx : lastIndex ['.'] (a ++ '.' :: ws) = a.length :=
    lastIndex_append_cons a ⟨ws, rfl⟩ hno
  rw [getPRWorkspaceName, if_neg (by simp), if_neg h, hidx]
  simp [drop_append]

/-- **The workspace of a name with a dot.** It follows a dot, and either holds
    none itself or is a version. -/
theorem getPRWorkspaceName_spec (h : '.' ∈ name) : ∃ a, name = a ++ '.' :: getPRWorkspaceName name ∧
      ('.' ∉ getPRWorkspaceName name ∧ ¬ name.tails.any semverSuffix ∨
        ∃ r, getPRWorkspaceName name = 'v' :: r ∧ semverSuffix ('.' :: 'v' :: r)) := by
  by_cases hany : name.tails.any semverSuffix
  · obtain ⟨a, r, rfl, hr⟩ := tails_any_semverSuffix.mp hany
    refine ⟨a, ?_, .inr ⟨r, getPRWorkspaceName_semver hr, hr⟩⟩
    rw [getPRWorkspaceName_semver hr]
  · obtain ⟨ps, ws, hsplit⟩ :=
      (eq_nil_or_concat' (name.splitOn '.')).resolve_left (splitOn_ne_nil _ _)
    have hws : '.' ∉ ws := not_mem_of_splitOn (by rw [hsplit]; simp)
    have hps : ps ≠ [] := by
      rintro rfl
      have : name = ws := by
        rw [← join_splitOn (c := '.') (s := name), hsplit]
        simp
      exact hws (this ▸ h)
    have hname : name = join '.' ps ++ '.' :: ws := by
      rw [← join_concat hps, ← hsplit, join_splitOn]
    have hget : getPRWorkspaceName name = ws := by
      rw [hname]
      exact getPRWorkspaceName_plain hws (hname ▸ hany)
    exact ⟨join '.' ps, by rw [hget]; exact hname, .inl ⟨hget ▸ hws, hany⟩⟩

theorem getPRWorkspaceName_of_no_dot (h : '.' ∉ name) : getPRWorkspaceName name = [] := if_pos h

end Workspace

end Porch.ApiUtil
