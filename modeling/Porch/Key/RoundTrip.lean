import Porch.Key.NameSpec

/- Keys and object names are two codings of one thing, up to two limits that this
   module makes exact.

   A key that passes the validators comes back from its own name, unless its
   workspace is read as the rest of a version that an earlier component opens:
   `repo.a.v1.1` is package `a` at workspace `v1.1`, never package `v1` at
   workspace `1` (`pkgRevK8sName2Key_k8sName`).

   A name that the parsers accept is composed again from the key they return,
   provided its path components are non-empty and hold no slash
   (`k8sName_of_accepted`); the validators take a path with a slash at either
   end, so `repo..pkg.ws` and `repo.pkg.ws` are both accepted and give one key. -/
namespace Porch

open Go ApiUtil List

variable {rules : NameRules} {ns name : Str}

/-! What the parsers do on the components of a name -/

theorem take_before (a ws : Str) :
    (a ++ '.' :: ws).take ((a ++ '.' :: ws).length - ws.length) = a ++ ['.'] := by
  have hlen : (a ++ '.' :: ws).length - ws.length = (a ++ ['.']).length := by
    simp only [length_append, length_cons, length_nil]
    omega
  rw [hlen, show a ++ '.' :: ws = (a ++ ['.']) ++ ws by simp, take_left]

theorem conditionedK8SName_append (a ws : Str) :
    conditionedK8SName (a ++ '.' :: ws) ws = a ++ '.' :: replaceChar '.' '-' ws := by
  unfold conditionedK8SName
  split
  · rw [take_before]
    simp
  · next h => rw [replaceChar_of_not_mem h]

section Parse

variable {a repo pkg ws : Str} {mid : List Str}

theorem splitIn3OnDelimiter_pkg (ha : a.splitOn '.' = repo :: mid ++ [pkg]) :
    splitIn3OnDelimiter a '.' = (repo, join '.' mid, pkg) := by
  obtain ⟨hjoin, hno⟩ := eq_join_of_splitOn ha
  obtain ⟨hrepo, hmid, hpkg⟩ := forall_mem_parts.mp hno
  rw [hjoin]
  exact splitIn3OnDelimiter_join hrepo hmid hpkg

theorem pkgK8sName2Key_eq (ha : name.splitOn '.' = repo :: mid ++ [pkg]) :
    pkgK8sName2Key rules ns name =
      okUnless (validPkgObjName rules repo (join '/' mid) pkg)
        { repoKey := { namesp := ns, name := repo }, path := join '/' mid, package := pkg } := by
  have hpath : replaceChar '.' '/' (join '.' mid) = join '/' mid :=
    replaceChar_join fun p hp => not_mem_of_splitOn (s := name) (by simp [ha, hp])
  simp only [pkgK8sName2Key, splitIn3OnDelimiter_pkg ha, hpath]

theorem pkgRevK8sName2Key_eq (hws : getPRWorkspaceName (a ++ '.' :: ws) = ws)
    (ha : a.splitOn '.' = repo :: mid ++ [pkg]) :
    pkgRevK8sName2Key rules ns (a ++ '.' :: ws) =
      okUnless (validPkgRevObjName rules repo (join '/' mid) pkg (replaceChar '.' '-' ws))
        { pkgKey :=
            { repoKey := { namesp := ns, name := repo }, path := join '/' mid, package := pkg }
          workspaceName := ws } := by
  obtain ⟨hjoin, hno⟩ := eq_join_of_splitOn ha
  have hpath : replaceChar '.' '/' (join '.' mid) = join '/' mid :=
    replaceChar_join (forall_mem_parts.mp hno).2.1
  rw [cons_append] at hjoin
  have hPR : splitIn3OnDelimiter (a ++ '.' :: replaceChar '.' '-' ws) '.' =
      (repo, join '.' (mid ++ [pkg]), replaceChar '.' '-' ws) := by
    rw [hjoin, ← join_concat (by simp)]
    exact splitIn3OnDelimiter_join (hno _ (by simp)) (fun p hp => hno p (mem_cons_of_mem _ hp))
      (not_mem_replaceChar (by decide))
  have hPkg : repo ++ '.' :: join '.' (mid ++ [pkg]) = a := by rw [hjoin, join_cons (by simp)]
  simp only [pkgRevK8sName2Key, hws, conditionedK8SName_append, hPR, hPkg,
    splitIn3OnDelimiter_pkg ha, hpath]

end Parse

theorem splitOn_cases (s : Str) :
    s.splitOn '.' = [s] ∨ ∃ repo mid pkg, s.splitOn '.' = repo :: mid ++ [pkg] := by
  by_cases h : '.' ∈ s
  · obtain ⟨x, y, rfl, hx⟩ := eq_append_cons_of_mem h
    rw [splitOn_append_cons_self_of_not_mem hx]
    obtain ⟨mid, pkg, hy⟩ :=
      (eq_nil_or_concat' (y.splitOn '.')).resolve_left (splitOn_ne_nil _ _)
    exact .inr ⟨x, mid, pkg, by rw [hy, cons_append]⟩
  · exact .inl (splitOn_eq_singleton h)

theorem not_validPkgObjName_no_pkg {repo path : Str} : validPkgObjName rules repo path [] ≠ none :=
  fun h => (validPkgObjName_eq_none.mp h).1.2.2.ne_nil rfl

theorem not_validPkgRevObjName_no_pkg {repo path ws : Str} :
    validPkgRevObjName rules repo path [] ws ≠ none :=
  fun h => (validPkgRevObjName_eq_none.mp h).1.1.2.2.ne_nil rfl

/-- **What an accepted package name is.** -/
theorem pkgK8sName2Key_ok {k : PackageKey} (h : pkgK8sName2Key rules ns name = .ok k) :
    ∃ mid, name.splitOn '.' = k.repoKey.name :: mid ++ [k.package] ∧ k.path = join '/' mid ∧
      validPkgObjName rules k.repoKey.name k.path k.package = none := by
  rcases splitOn_cases name with hs | ⟨repo, mid, pkg, hs⟩
  · -- one component: the package is empty
    have hno : '.' ∉ name := not_mem_of_splitOn (by rw [hs]; simp)
    simp only [pkgK8sName2Key, splitIn3OnDelimiter_of_not_mem hno] at h
    exact absurd (okUnless_eq_ok.mp h).1 not_validPkgObjName_no_pkg
  · rw [pkgK8sName2Key_eq hs] at h
    obtain ⟨hv, rfl⟩ := okUnless_eq_ok.mp h
    exact ⟨mid, hs, rfl, hv⟩

/-- **What an accepted package revision name is.** -/
theorem pkgRevK8sName2Key_ok {k : PackageRevisionKey}
    (h : pkgRevK8sName2Key rules ns name = .ok k) :
    ∃ a mid, name = a ++ '.' :: k.workspaceName ∧ k.workspaceName = getPRWorkspaceName name ∧
      a.splitOn '.' = k.pkgKey.repoKey.name :: mid ++ [k.pkgKey.package] ∧
      k.pkgKey.path = join '/' mid ∧
      validPkgRevObjName rules k.pkgKey.repoKey.name k.pkgKey.path k.pkgKey.package
        (replaceChar '.' '-' k.workspaceName) = none := by
  by_cases hdot : '.' ∈ name
  · obtain ⟨a, hname, -⟩ := getPRWorkspaceName_spec hdot
    generalize hws : getPRWorkspaceName name = ws at hname
    subst hname
    rcases splitOn_cases a with hs | ⟨repo, mid, pkg, hs⟩
    · -- two components: the package is empty
      have hno : '.' ∉ a := not_mem_of_splitOn (by rw [hs]; simp)
      have hPR : splitIn3OnDelimiter (a ++ '.' :: replaceChar '.' '-' ws) '.' =
          (a, [], replaceChar '.' '-' ws) :=
        splitIn3OnDelimiter_two hno (not_mem_replaceChar (by decide))
      have hPkg : splitIn3OnDelimiter (a ++ ['.']) '.' = (a, [], []) :=
        splitIn3OnDelimiter_two hno (by simp)
      simp only [pkgRevK8sName2Key, hws, conditionedK8SName_append, hPR, hPkg] at h
      exact absurd (okUnless_eq_ok.mp h).1 not_validPkgRevObjName_no_pkg
    · rw [pkgRevK8sName2Key_eq hws hs] at h
      obtain ⟨hv, rfl⟩ := okUnless_eq_ok.mp h
      exact ⟨a, mid, rfl, rfl, hs, rfl, hv⟩
  · -- no dot at all: workspace and package are empty
    have hPkg : splitIn3OnDelimiter (name ++ ['.']) '.' = (name, [], []) :=
      splitIn3OnDelimiter_two hdot (by simp)
    simp only [pkgRevK8sName2Key, getPRWorkspaceName_of_no_dot hdot, conditionedK8SName,
      not_mem_nil, if_false, splitIn3OnDelimiter_of_not_mem hdot, hPkg] at h
    exact absurd (okUnless_eq_ok.mp h).1 not_validPkgRevObjName_no_pkg

/-! From a key to its name and back -/

/-- A component that opens a version: `v` and digits, or `v` alone. -/
def opensVersion : Str → Bool
  | 'v' :: ds => ds.all isDigit
  | _ => false

/-- Going back over components, only digits up to one that opens a version. -/
def versionOpen : List Str → Bool
  | [] => false
  | p :: ps => opensVersion p || (p.all isDigit && versionOpen ps)

/-- The workspace reads as the rest of a version that the package or a path
    component opens. -/
def wsContinuesVersion (path pkg ws : Str) : Bool :=
  ws.all isDigit && versionOpen (pkg :: (path.splitOn '/').reverse)

theorem opensVersion_iff {p : Str} : opensVersion p ↔ ∃ ds, p = 'v' :: ds ∧ ds.all isDigit := by
  unfold opensVersion
  split
  · simp
  · next h => simpa using fun ds hp => absurd hp (h ds)

theorem versionOpen_iff {ps : List Str} :
    versionOpen ps ↔ ∃ rest ds front, ps = rest ++ ('v' :: ds) :: front ∧ ds.all isDigit ∧
      ∀ p ∈ rest, p.all isDigit := by
  induction ps with
  | nil => simp [versionOpen]
  | cons p ps ih =>
    simp only [versionOpen, Bool.or_eq_true, Bool.and_eq_true, opensVersion_iff, ih]
    constructor
    · rintro (⟨ds, rfl, hds⟩ | ⟨hp, rest, ds, front, rfl, hds, hrest⟩)
      · exact ⟨[], ds, ps, rfl, hds, by simp⟩
      · exact ⟨p :: rest, ds, front, rfl, hds, by simpa using ⟨by simpa using hp, by simpa using hrest⟩⟩
    · rintro ⟨rest, ds, front, hps, hds, hrest⟩
      cases rest with
      | nil =>
        simp only [nil_append, cons.injEq] at hps
        exact .inl ⟨ds, hps.1, hds⟩
      | cons q rest =>
        simp only [cons_append, cons.injEq] at hps
        obtain ⟨rfl, rfl⟩ := hps
        exact .inr ⟨hrest p (by simp), rest, ds, front, rfl, hds, fun q hq => hrest q (by simp [hq])⟩

theorem versionOpen_concat_nil (ps : List Str) : versionOpen (ps ++ [[]]) = versionOpen ps := by
  induction ps with
  | nil => rfl
  | cons p ps ih => simp [versionOpen, ih]

section RoundTrip

variable {repo path pkg ws : Str}

section

variable (hdir : DirOk path) (hlead : path.head? ≠ some '/') (htrail : path.getLast? ≠ some '/')
include hdir hlead htrail

theorem pathElems_eq_splitOn (hne : path ≠ []) : pathElems path = path.splitOn '/' := by
  have hno : ¬ ['/', '/'] <:+: path := by
    rcases hdir with hnil | ⟨hno, -⟩
    · -- only slashes: then the path starts with one
      obtain ⟨x, xs, rfl⟩ := exists_cons_of_ne_nil hne
      have hx : x = '/' := by
        have := filter_eq_nil_iff.mp hnil x (by simp)
        simpa using this
      simp [hx] at hlead
    · exact hno
  refine filter_eq_self.mpr fun e he => ?_
  have he' : e ≠ [] := by
    rintro rfl
    rcases nil_mem_splitOn he with h | h | h | h
    · exact hne h
    · exact hlead h
    · exact htrail h
    · exact hno h
  simpa using he'

theorem join_pathElems : join '/' (pathElems path) = path := by
  by_cases hne : path = []
  · subst hne
    rfl
  · rw [pathElems_eq_splitOn hdir hlead htrail hne, join_splitOn]

theorem versionOpen_pathElems :
    versionOpen (pkg :: (path.splitOn '/').reverse) =
      versionOpen (pkg :: (pathElems path).reverse) := by
  by_cases hne : path = []
  · subst hne
    exact versionOpen_concat_nil [pkg]
  · rw [pathElems_eq_splitOn hdir hlead htrail hne]

end

theorem digits_of_mem_splitOn {r p : Str} (hr : semverSuffix ('.' :: 'v' :: r))
    (hp : p ∈ r.splitOn '.') : p.all isDigit := by
  refine all_eq_true.mpr fun c hc => ?_
  have hmem : c ∈ r := by simpa [join_splitOn] using mem_join_of_mem (c := '.') hp hc
  rcases semverSuffix_mem hr hmem with h | rfl
  · exact h
  · exact absurd hc (not_mem_of_splitOn hp)

theorem semverSuffix_join {ds : Str} {parts : List Str} (hds : ds.all isDigit)
    (hparts : ∀ p ∈ parts, p.all isDigit) (hws : ws.all isDigit) (hne : ws ≠ []) :
    semverSuffix ('.' :: 'v' :: join '.' (ds :: parts ++ [ws])) := by
  have hlast : ∃ xs x, join '.' (ds :: parts ++ [ws]) = xs ++ [x] ∧ isDigit x := by
    obtain ⟨ys, y, rfl⟩ := (eq_nil_or_concat' ws).resolve_left hne
    have hy : isDigit y := all_eq_true.mp hws y (by simp)
    exact ⟨join '.' (ds :: parts) ++ '.' :: ys, y, by rw [join_concat (by simp)]; simp, hy⟩
  obtain ⟨xs, x, hxs, hx⟩ := hlast
  have hall : ∀ c ∈ join '.' (ds :: parts ++ [ws]), isDigit c ∨ c = '.' := by
    intro c hc
    rcases mem_join hc with rfl | ⟨p, hp, hcp⟩
    · exact .inr rfl
    · have hdigits := forall_mem_parts.mpr ⟨hds, hparts, hws⟩ p hp
      exact .inl (all_eq_true.mp hdigits c hcp)
  rw [hxs] at hall ⊢
  simp only [semverSuffix, Bool.and_eq_true, all_eq_true, Bool.or_eq_true, beq_iff_eq]
  exact ⟨hall, by simpa using hx⟩

/-- **Which workspace is read from a composed name.** With components `elems`
    and a dot-free workspace, the parser finds that workspace exactly when it
    does not continue a version. -/
theorem getPRWorkspaceName_composed {elems : List Str} (hrepo : '.' ∉ repo)
    (helems : ∀ e ∈ elems, '.' ∉ e) (hws : '.' ∉ ws) (hne : ws ≠ []) :
    getPRWorkspaceName (join '.' (repo :: elems) ++ '.' :: ws) = ws ↔
      ¬ (ws.all isDigit && versionOpen elems.reverse) := by
  have hsplit : (join '.' (repo :: elems) ++ '.' :: ws).splitOn '.' = repo :: elems ++ [ws] := by
    rw [← join_concat (by simp)]
    exact splitOn_join (forall_mem_parts.mpr ⟨hrepo, helems, hws⟩) (by simp)
  simp only [Bool.and_eq_true, versionOpen_iff, not_and]
  constructor
  · -- a version that is open makes the workspace part of a longer one
    rintro hget hdigits ⟨rest, ds, front, hrev, hds, hrest⟩
    have helems' : elems = front.reverse ++ ('v' :: ds) :: rest.reverse := by
      rw [← reverse_reverse elems, hrev]
      simp
    have hver : semverSuffix ('.' :: 'v' :: join '.' (ds :: rest.reverse ++ [ws])) :=
      semverSuffix_join hds (fun p hp => hrest p (by simpa using hp)) hdigits hne
    have hname : join '.' (repo :: elems) ++ '.' :: ws =
        join '.' (repo :: front.reverse) ++ '.' :: 'v' :: join '.' (ds :: rest.reverse ++ [ws]) := by
      have hjoin : join '.' (('v' :: ds) :: rest.reverse ++ [ws]) =
          'v' :: join '.' (ds :: rest.reverse ++ [ws]) := by
        rw [cons_append, cons_append, join_cons (by simp), join_cons (by simp),
          cons_append]
      rw [← join_concat (by simp), helems', ← hjoin, ← join_append (by simp) (by simp)]
      simp
    rw [hname, getPRWorkspaceName_semver hver] at hget
    refine hws ?_
    rw [← hget, join_concat (by simp)]
    simp
  · -- otherwise the text after the last dot is what is read
    intro hopen
    have hdot : '.' ∈ join '.' (repo :: elems) ++ '.' :: ws := by simp
    obtain ⟨a, hname, hcases⟩ := getPRWorkspaceName_spec hdot
    generalize getPRWorkspaceName (join '.' (repo :: elems) ++ '.' :: ws) = g at hname hcases ⊢
    rw [hname, splitOn_append_cons_self] at hsplit
    by_cases hg : '.' ∈ g
    · exfalso
      obtain ⟨hno, -⟩ | ⟨r, rfl, hr⟩ := hcases
      · exact hno hg
      · have hdot : '.' ∈ r := by simpa using hg
        obtain ⟨ds, r', rfl, hds⟩ := eq_append_cons_of_mem hdot
        obtain ⟨rest, x, hrest⟩ :=
          (eq_nil_or_concat' (r'.splitOn '.')).resolve_left (splitOn_ne_nil _ _)
        obtain ⟨y, ys, hys⟩ := exists_cons_of_ne_nil (splitOn_ne_nil '.' a)
        have hsplitr : (ds ++ '.' :: r').splitOn '.' = ds :: (rest ++ [x]) := by
          rw [splitOn_append_cons_self_of_not_mem hds, hrest]
        have hsplitv : ('v' :: (ds ++ '.' :: r')).splitOn '.' = ('v' :: ds) :: (rest ++ [x]) := by
          rw [← cons_append, splitOn_append_cons_self_of_not_mem (by simpa using hds), hrest]
        have hdigits : ∀ p ∈ ds :: (rest ++ [x]), p.all isDigit := fun p hp =>
          digits_of_mem_splitOn hr (by rw [hsplitr]; exact hp)
        have hlists : (ys ++ ('v' :: ds) :: rest) ++ [x] = elems ++ [ws] := by
          rw [hsplitv, hys, cons_append, cons_append] at hsplit
          simpa using (cons.inj hsplit).2
        obtain ⟨rfl, hx⟩ := append_inj' hlists rfl
        have hx : x = ws := by simpa using hx
        refine hopen (hx ▸ hdigits x (by simp)) ⟨rest.reverse, ds, ys.reverse, by simp, hdigits ds (by simp), ?_⟩
        intro p hp
        exact hdigits p (by simp [mem_reverse.mp hp])
    · rw [splitOn_eq_singleton hg] at hsplit
      have := (append_inj' hsplit rfl).2
      simpa using this

/-- **A valid key comes back from its name, unless its workspace continues a
    version.** The revision is not part of the name and comes back as 0. -/
theorem pkgRevK8sName2Key_k8sName (rules : NameRules) (ns : Str) (k : PackageRevisionKey)
    (hvalid : validPkgRevObjName rules k.pkgKey.repoKey.name k.pkgKey.path k.pkgKey.package
      k.workspaceName = none)
    (hlead : k.pkgKey.path.head? ≠ some '/') (htrail : k.pkgKey.path.getLast? ≠ some '/') :
    (∃ k', pkgRevK8sName2Key rules ns k.k8sName = .ok k' ∧
        k'.pkgKey.repoKey.name = k.pkgKey.repoKey.name ∧ k'.pkgKey.path = k.pkgKey.path ∧
        k'.pkgKey.package = k.pkgKey.package ∧ k'.workspaceName = k.workspaceName ∧
        k'.revision = 0) ↔
      ¬ wsContinuesVersion k.pkgKey.path k.pkgKey.package k.workspaceName := by
  obtain ⟨⟨⟨hrepo, hdir, hpkg⟩, hws⟩, -⟩ := validPkgRevObjName_eq_none.mp hvalid
  generalize hr : k.pkgKey.repoKey.name = repo at *
  generalize hp : k.pkgKey.path = path at *
  generalize hk : k.pkgKey.package = pkg at *
  generalize hw : k.workspaceName = ws at *
  have hname : k.k8sName = join '.' (repo :: (pathElems path ++ [pkg])) ++ '.' :: ws := by
    rw [PackageRevisionKey.k8sName, hr, hp, hk, hw,
      composePkgRevObjName_eq hrepo.ne_nil hdir.no_dot hpkg hws.ne_nil, cons_append]
  have helems : ∀ e ∈ pathElems path ++ [pkg], '.' ∉ e :=
    forall_mem_append.mpr
      ⟨fun e he => no_dot_of_mem_splitOn hdir.no_dot (mem_pathElems he).1,
        forall_mem_singleton.mpr hpkg.no_dot⟩
  have hget := getPRWorkspaceName_composed hrepo.no_dot helems hws.no_dot hws.ne_nil
  rw [reverse_append, reverse_singleton, singleton_append,
    ← versionOpen_pathElems hdir hlead htrail, ← hname] at hget
  rw [wsContinuesVersion, ← hget]
  constructor
  · rintro ⟨k', hok, -, -, -, hws', -⟩
    obtain ⟨-, -, -, hget', -⟩ := pkgRevK8sName2Key_ok hok
    rw [← hget', hws']
  · intro hws'
    have hsplit : (join '.' (repo :: (pathElems path ++ [pkg]))).splitOn '.' =
        repo :: pathElems path ++ [pkg] :=
      splitOn_join (forall_mem_cons.mpr ⟨hrepo.no_dot, helems⟩) (by simp)
    have hparse : pkgRevK8sName2Key rules ns _ = _ :=
      pkgRevK8sName2Key_eq (hname ▸ hws') hsplit
    rw [← hname, join_pathElems hdir hlead htrail, replaceChar_of_not_mem hws.no_dot, hvalid]
      at hparse
    exact ⟨_, hparse, rfl, rfl, rfl, rfl, rfl⟩

theorem pkgRevK8sName2Key_k8sName_sample :
    (∃ k', pkgRevK8sName2Key .documented "ns" "repo.a.b.pkg.v1" = .ok k' ∧
        k'.pkgKey.repoKey.name = "repo" ∧ k'.pkgKey.path = "a/b" ∧
        k'.pkgKey.package = "pkg" ∧ k'.workspaceName = "v1" ∧ k'.revision = 0) :=
  (pkgRevK8sName2Key_k8sName .documented "ns"
    { pkgKey :=
        { repoKey := { name := "repo" }, path := "a/b", package := "pkg" }
      revision := 3
      workspaceName := "v1" }
    (by decide) (by decide) (by decide)).mpr (by decide)

/-- Package `v1` of directory `a` at workspace `1` is a valid key, but its name
    is read as package `a` at workspace `v1.1`. -/
theorem version_package_misread :
    validPkgRevObjName .documented "repo" "a" "v1" "1" = none ∧
      PackageRevisionKey.k8sName
        { pkgKey :=
            { repoKey := { name := "repo" }, path := "a", package := "v1" }
          workspaceName := "1" } = "repo.a.v1.1" ∧
      pkgRevK8sName2Key .documented "ns" "repo.a.v1.1" = .ok
        { pkgKey :=
            { repoKey := { namesp := "ns", name := "repo" }
              path := []
              package := "a" }
          workspaceName := "v1.1" } := by
  decide

end RoundTrip

/-! From a name to its key and back -/

/-- The part of a package revision's name before its workspace. -/
def packagePart (k8sName : Str) : Str :=
  k8sName.take (k8sName.length - (getPRWorkspaceName k8sName).length)

/-- No component of the name is empty and none holds a slash. -/
def PlainName (s : Str) : Prop := ¬ ['.', '.'] <:+: s ∧ '/' ∉ s

section Recompose

variable {a repo pkg : Str} {mid : List Str}

theorem join_inj {parts parts' : List Str} (h : join '.' parts = join '.' parts')
    (hparts : ∀ p ∈ parts, '.' ∉ p) (hparts' : ∀ p ∈ parts', '.' ∉ p) (hne : parts ≠ [])
    (hne' : parts' ≠ []) : parts = parts' := by
  rw [← splitOn_join hparts hne, h, splitOn_join hparts' hne']

theorem pathElems_join_iff :
    pathElems (join '/' mid) = mid ↔ ∀ e ∈ mid, e ≠ [] ∧ '/' ∉ e := by
  constructor
  · intro h e he
    rw [← h] at he
    exact ⟨(mem_pathElems he).2, not_mem_of_splitOn (mem_pathElems he).1⟩
  · intro h
    by_cases hmid : mid = []
    · subst hmid
      rfl
    · rw [pathElems, splitOn_join (fun e he => (h e he).2) hmid]
      exact filter_eq_self.mpr fun e he => by simpa using (h e he).1

section

variable (ha : a.splitOn '.' = repo :: mid ++ [pkg]) (hrepo : IsLabel repo) (hpkg : IsLabel pkg)
include ha hrepo hpkg

/-- The dots and slashes of a package name whose ends are labels are those of its
    inner components. -/
theorem plainName_iff : PlainName a ↔ ∀ e ∈ mid, e ≠ [] ∧ '/' ∉ e := by
  have hjoin := (eq_join_of_splitOn ha).1
  have hmem : ∀ p, p ∈ a.splitOn '.' ↔ p = repo ∨ p ∈ mid ∨ p = pkg := by simp [ha]
  constructor
  · rintro ⟨hdots, hslash⟩ e he
    have he' : e ∈ a.splitOn '.' := (hmem e).mpr (.inr (.inl he))
    refine ⟨?_, fun hc => hslash ?_⟩
    · rintro rfl
      obtain ⟨x, xs, hx⟩ := exists_cons_of_ne_nil hrepo.ne_nil
      rcases nil_mem_splitOn he' with h | h | h | h
      · simp [hjoin, join_cons, hx] at h
      · have : x ≠ '.' := fun e => hrepo.no_dot (by simp [hx, e])
        simp [hjoin, join_cons, hx, this] at h
      · have hlast : (join '.' (repo :: mid ++ [pkg])).getLast? = pkg.getLast? := by
          obtain ⟨ys, y, hy⟩ := (eq_nil_or_concat' pkg).resolve_left hpkg.ne_nil
          rw [join_concat (by simp), hy, ← cons_append, ← append_assoc,
            getLast?_concat, getLast?_concat]
        rw [hjoin, hlast] at h
        exact hpkg.no_dot (mem_of_getLast? h)
      · exact hdots h
    · simpa [join_splitOn] using mem_join_of_mem (c := '.') he' hc
  · intro h
    refine ⟨fun hdots => ?_, fun hslash => ?_⟩
    · rcases (hmem []).mp (nil_mem_splitOn_of_double hdots) with h' | h' | h'
      · exact hrepo.ne_nil h'.symm
      · exact (h [] h').1 rfl
      · exact hpkg.ne_nil h'.symm
    · rw [hjoin] at hslash
      rcases mem_join hslash with h' | ⟨p, hp, hc⟩
      · simp at h'
      · rcases (hmem p).mp (ha ▸ hp) with rfl | hp | rfl
        · exact hrepo.no_slash hc
        · exact (h p hp).2 hc
        · exact hpkg.no_slash hc

/-- The name composed from the parts of a package name is the name itself exactly
    when the inner components are plain. -/
theorem join_pathElems_eq_iff :
    join '.' (repo :: pathElems (join '/' mid) ++ [pkg]) = a ↔ PlainName a := by
  obtain ⟨hjoin, hno⟩ := eq_join_of_splitOn ha
  rw [plainName_iff ha hrepo hpkg, ← pathElems_join_iff]
  constructor
  · intro h
    have hdot : '.' ∉ join '/' mid := by
      intro hc
      rcases mem_join hc with h' | ⟨p, hp, hc⟩
      · simp at h'
      · exact hno p (by simp [hp]) hc
    have hno' : ∀ p ∈ repo :: pathElems (join '/' mid) ++ [pkg], '.' ∉ p :=
      forall_mem_parts.mpr ⟨hrepo.no_dot,
        fun p hp => no_dot_of_mem_splitOn hdot (mem_pathElems hp).1, hpkg.no_dot⟩
    have := join_inj (h.trans hjoin) hno' hno (by simp) (by simp)
    simpa using this
  · intro h
    rw [h, hjoin]

end

theorem pkgKey_k8sName_iff {k : PackageKey} (h : pkgK8sName2Key rules ns name = .ok k) :
    k.k8sName = name ↔ PlainName name := by
  obtain ⟨mid, hsplit, hpath, hvalid⟩ := pkgK8sName2Key_ok h
  obtain ⟨⟨hrepo, hdir, hpkg⟩, -⟩ := validPkgObjName_eq_none.mp hvalid
  rw [PackageKey.k8sName, composePkgObjName_eq hrepo.ne_nil hdir.no_dot hpkg, hpath]
  exact join_pathElems_eq_iff hsplit hrepo hpkg

theorem packagePart_eq {ws : Str} (h : name = a ++ '.' :: ws) (hws : ws = getPRWorkspaceName name) :
    packagePart name = a ++ ['.'] := by
  rw [packagePart, ← hws, h, take_before]

theorem plainName_concat_dot (hlast : a.getLast? ≠ some '.') :
    PlainName (a ++ ['.']) ↔ PlainName a := by
  have hdots : ['.', '.'] <:+: a ++ ['.'] ↔ ['.', '.'] <:+: a := by
    constructor
    · rintro ⟨x, y, hxy⟩
      rcases eq_nil_or_concat' y with rfl | ⟨ys, z, rfl⟩
      · -- the two dots would be the last of the name and the one before it
        have : x ++ ['.'] = a := by
          have hxy' : (x ++ ['.']) ++ ['.'] = a ++ ['.'] := by simpa using hxy
          exact (append_inj' hxy' rfl).1
        exact absurd (by simp [← this]) hlast
      · have hxy' : (x ++ ['.', '.'] ++ ys) ++ [z] = a ++ ['.'] := by simpa using hxy
        exact ⟨x, ys, (append_inj' hxy' rfl).1⟩
    · exact fun h => h.trans (prefix_append _ _).isInfix
  simp [PlainName, hdots]

/-- An accepted package revision name is composed again exactly when its package
    part is plain; the workspace always comes back, dots included. -/
theorem pkgRevKey_k8sName_iff {k : PackageRevisionKey}
    (h : pkgRevK8sName2Key rules ns name = .ok k) :
    k.k8sName = name ↔ PlainName (packagePart name) := by
  obtain ⟨a, mid, hname, hws, hsplit, hpath, hvalid⟩ := pkgRevK8sName2Key_ok h
  obtain ⟨⟨⟨hrepo, hdir, hpkg⟩, hlabel⟩, -⟩ := validPkgRevObjName_eq_none.mp hvalid
  have hwsne : k.workspaceName ≠ [] := by
    intro hnil
    exact hlabel.ne_nil (by simp [hnil])
  have hlast : a.getLast? ≠ some '.' := by
    intro hl
    obtain ⟨a', rfl⟩ := getLast?_eq_some_iff.mp hl
    rw [splitOn_append_cons_self] at hsplit
    have := (append_inj' hsplit rfl).2
    exact hpkg.ne_nil (by simpa using this.symm)
  rw [packagePart_eq hname hws, plainName_concat_dot hlast,
    ← join_pathElems_eq_iff hsplit hrepo hpkg, PackageRevisionKey.k8sName,
    composePkgRevObjName_eq hrepo.ne_nil hdir.no_dot hpkg hwsne, hpath]
  constructor
  · intro heq
    rw [hname] at heq
    exact append_cancel_right heq
  · intro heq
    rw [heq, ← hname]

/-- **Accepted plain names and keys determine each other.** Composing the key of
    an accepted name gives the name back when its path components are non-empty
    and hold no slash, for package revisions and for packages; so two such names
    with one key are one name. -/
theorem k8sName_of_accepted (rules : NameRules) :
    (∀ ns name k, pkgRevK8sName2Key rules ns name = .ok k → PlainName (packagePart name) →
      k.k8sName = name) ∧
    (∀ ns name k, pkgK8sName2Key rules ns name = .ok k → PlainName name → k.k8sName = name) ∧
    (∀ ns name name' k, pkgRevK8sName2Key rules ns name = .ok k →
      pkgRevK8sName2Key rules ns name' = .ok k → PlainName (packagePart name) →
      PlainName (packagePart name') → name = name') := by
  refine ⟨fun ns name k h hp => (pkgRevKey_k8sName_iff h).mpr hp,
    fun ns name k h hp => (pkgKey_k8sName_iff h).mpr hp, ?_⟩
  intro ns name name' k h h' hp hp'
  rw [← (pkgRevKey_k8sName_iff h).mpr hp, (pkgRevKey_k8sName_iff h').mpr hp']

theorem k8sName_of_accepted_sample :
    PackageRevisionKey.k8sName
      { pkgKey :=
          { repoKey := { namesp := "ns", name := "repo" }
            path := "a/b"
            package := "pkg" }
        workspaceName := "v1.2.3" } = "repo.a.b.pkg.v1.2.3" :=
  (k8sName_of_accepted .documented).1 "ns" "repo.a.b.pkg.v1.2.3" _ (by decide)
    ⟨by decide, by decide⟩

/-- Two different accepted names denote one package revision, and composing its
    key gives only one of them. -/
theorem empty_component_dropped :
    pkgRevK8sName2Key .documented "ns" "repo..pkg.ws" =
        pkgRevK8sName2Key .documented "ns" "repo.pkg.ws" ∧
      ∃ k, pkgRevK8sName2Key .documented "ns" "repo..pkg.ws" = .ok k ∧
        k.k8sName = "repo.pkg.ws" ∧ k.k8sName ≠ "repo..pkg.ws" := by
  let k : PackageRevisionKey :=
    { pkgKey :=
        { repoKey := { namesp := "ns", name := "repo" }
          path := []
          package := "pkg" }
      workspaceName := "ws" }
  exact ⟨by decide, k, by decide, by decide, by decide⟩

end Recompose

end Porch
