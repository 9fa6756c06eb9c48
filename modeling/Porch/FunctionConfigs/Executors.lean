import Porch.Go.Strings

/- Which builtin or binary executor runs a function.

     Parse, Prefix                                   parse, imagePrefix
     PrefixRegex.MatchString (generateRegexPattern)  matchString

   Every lookup parses the image first and is given the parsed image here. The semver library and
   the regular expression for registry hosts are parameters. Each lookup looks at the prefix and
   at the tag in its own way (`executor_suits_iff`): `GetRunner` does not look at the prefix of an
   image with a tag constraint, so that the builtin function of its name runs for an image of any
   registry (`other_registry_runs_builtin`). -/
namespace Porch.FunctionConfigs

open Go

structure ParsedImage where
  registry : Str
  subPath : Str
  baseName : Str
  tag : Str
  digest : Str

/-- What stands before and after the last `c`. -/
def cutLast (c : Char) (s : Str) : Option (Str × Str) :=
  let i := lastIndex [c] s
  if i < 0 then none else some (s.take i.toNat, s.drop (i.toNat + 1))

def parse (registryRE : Str → Bool) (fullImageName : Str) : ParsedImage :=
  let (registry, rest) := match fullImageName.span (· ≠ '/') with
    | (str, _ :: rest) => if registryRE str then (str, rest) else ([], fullImageName)
    | (_, []) => ([], fullImageName)
  let (subPath, rest) := ((cutLast '/' rest).map fun p => (trim '/' p.1, p.2)).getD ([], rest)
  let (rest, digest) := (cutLast '@' rest).getD (rest, [])
  let (rest, tag) := (cutLast ':' rest).getD (rest, [])
  ⟨registry, subPath, rest.dropWhile (· = '/'), tag, digest⟩

def ParsedImage.imagePrefix (p : ParsedImage) : Str :=
  p.registry ++ (if p.registry ≠ [] ∧ p.subPath ≠ [] then "/".toList else []) ++ p.subPath

/-- The version or the constraint that a text is, if it is one. -/
structure Semver where
  Version : Type
  newVersion : Str → Option Version
  newConstraint : Str → Option (Version → Bool)

structure CacheEntry (α : Type) where
  /-- The processor, or the path of the binary. -/
  executor : α
  tags : List Str
  prefixes : List Str

structure FunctionConfigStore (α : Type) where
  defaultImagePrefix : Str
  builtInExecutorCache : Str → Option (CacheEntry α)
  binaryExecutorCache : Str → Option (CacheEntry Str)

variable {α β : Type} (v : Semver) (s : FunctionConfigStore α)

def matchesAnyConstraint (version : Str) (constraints : List Str) : Bool :=
  if constraints = [] then false
  else if "*".toList ∈ constraints then true
  else match v.newVersion version with
    | none => version ∈ constraints
    | some n => constraints.any fun cs => (v.newConstraint cs).any (· n)

/-- Of `FindBestSemverMatch` only the error is looked at. -/
def matchesConfigTags (request : Str) (tags : List Str) : Bool :=
  matchesAnyConstraint v request tags ||
    (v.newConstraint request).any fun c => tags.any fun tag => (v.newVersion tag).any c

/-- `^(?:a|b)$` for the prefixes `a` and `b`: without prefixes it matches the empty text. -/
def FunctionConfigStore.matchString (prefixes : List Str) (text : Str) : Bool :=
  (prefixes = [] && text = []) ||
    text ∈ prefixes.map fun p => if p = [] then s.defaultImagePrefix else p

/-- The executor of the entry, if there is one that meets the condition. -/
def select (entry : Option (CacheEntry β)) (ok : CacheEntry β → Bool) : Option β :=
  (entry.filter ok).map (·.executor)

variable (p : ParsedImage) (tag : Str)

def getBinaryFromCacheByConstraint : Option Str :=
  select (s.binaryExecutorCache p.baseName) fun e =>
    s.matchString e.prefixes p.imagePrefix && matchesConfigTags v tag e.tags

def getExecutablePath : Option Str :=
  if tag ≠ [] then getBinaryFromCacheByConstraint v s p tag
  else getBinaryFromCacheByConstraint v s p p.tag

/-- The prefix of the image, the default one if it has none. -/
def FunctionConfigStore.prefixToCheck : Str :=
  if p.imagePrefix = [] then s.defaultImagePrefix else p.imagePrefix

def getProcessorFromCache : Option α :=
  select (s.builtInExecutorCache p.baseName) fun e =>
    matchesAnyConstraint v p.tag e.tags && s.matchString e.prefixes (s.prefixToCheck p)

/-- An entry that is not there has no tags, and no request matches those. -/
def getRunner : Option α :=
  if tag ≠ [] then select (s.builtInExecutorCache p.baseName) fun e => matchesConfigTags v tag e.tags
  else getProcessorFromCache v s p

/-! What is to be selected -/

/-- The tag of a reference: the constraint if there is one, else the inline tag. -/
def ParsedImage.tagOf : Str := if tag ≠ [] then tag else p.tag

/-- The prefix and the tag are those of the configuration. -/
def Suits (e : CacheEntry β) : Prop :=
  s.matchString e.prefixes (s.prefixToCheck p) = true ∧ matchesConfigTags v (p.tagOf tag) e.tags = true

/-- What is selected is the executor of the entry of the base name, which suits the reference. -/
def Trusted : Prop :=
  (∀ x ∈ getRunner v s p tag,
    ∃ e ∈ s.builtInExecutorCache p.baseName, e.executor = x ∧ Suits v s p tag e) ∧
  ∀ x ∈ getExecutablePath v s p tag,
    ∃ e ∈ s.binaryExecutorCache p.baseName, e.executor = x ∧ Suits v s p tag e

/-- A binary that takes the image without a prefix is one of the default prefix. -/
def BareIsDefault : Prop :=
  p.imagePrefix = [] → ∀ e ∈ s.binaryExecutorCache p.baseName,
    matchesConfigTags v (p.tagOf tag) e.tags = true → s.matchString e.prefixes [] = true →
      s.matchString e.prefixes s.defaultImagePrefix = true

variable {v s p tag}

theorem select_suits {entry : Option (CacheEntry β)} {ok : CacheEntry β → Bool} {P : CacheEntry β → Prop} :
    (∀ x ∈ select entry ok, ∃ e ∈ entry, e.executor = x ∧ P e) ↔ ∀ e ∈ entry, ok e = true → P e := by
  unfold select
  cases entry with
  | none => simp
  | some e => by_cases h : ok e = true <;> simp [Option.filter, h]

theorem select_eq_select {entry : Option (CacheEntry β)} {ok ok' : CacheEntry β → Bool} :
    select entry ok = select entry ok' ↔ ∀ e ∈ entry, (ok e = true ↔ ok' e = true) := by
  unfold select
  cases entry with
  | none => simp
  | some e => by_cases h : ok e = true <;> by_cases h' : ok' e = true <;> simp [Option.filter, h, h']

theorem matchesConfigTags_of_any {t : Str} {tags : List Str}
    (h : matchesAnyConstraint v t tags = true) : matchesConfigTags v t tags = true := by
  rw [matchesConfigTags, h, Bool.true_or]

theorem getExecutablePath_eq :
    getExecutablePath v s p tag = getBinaryFromCacheByConstraint v s p (p.tagOf tag) := by
  unfold getExecutablePath ParsedImage.tagOf
  split <;> rfl

theorem binary_suits_iff : (∀ x ∈ getExecutablePath v s p tag,
    ∃ e ∈ s.binaryExecutorCache p.baseName, e.executor = x ∧ Suits v s p tag e) ↔
      BareIsDefault v s p tag := by
  rw [getExecutablePath_eq, getBinaryFromCacheByConstraint, select_suits, BareIsDefault]
  simp only [Suits, FunctionConfigStore.prefixToCheck, Bool.and_eq_true]
  by_cases himage : p.imagePrefix = []
  · simp only [himage, if_true, true_imp_iff]
    exact forall₂_congr fun e _ => by tauto
  · simp only [himage, if_false, false_imp_iff, iff_true]
    exact fun e _ hok => hok

theorem trusted_inline : Trusted v s p [] ↔ BareIsDefault v s p [] := by
  rw [Trusted, binary_suits_iff]
  refine and_iff_right (select_suits.mpr fun e _ hok => ?_)
  obtain ⟨htags, himage⟩ := Bool.and_eq_true_iff.mp hok
  exact ⟨himage, matchesConfigTags_of_any htags⟩

/-- **The executors suit a reference, and are those of its inline form**, exactly when a builtin
    entry whose tags match a tag constraint has the prefix of the image and matches the constraint
    as a version, and no binary takes an image without a prefix unless it has the default one. -/
theorem executor_suits_iff (v : Semver) (s : FunctionConfigStore α) (p : ParsedImage) (tag : Str) :
    (Trusted v s p tag ∧ Trusted v s { p with tag := p.tagOf tag } [] ∧
      getRunner v s { p with tag := p.tagOf tag } [] = getRunner v s p tag ∧
      getExecutablePath v s { p with tag := p.tagOf tag } [] = getExecutablePath v s p tag) ↔
    (tag ≠ [] → ∀ e ∈ s.builtInExecutorCache p.baseName, matchesConfigTags v tag e.tags = true →
      s.matchString e.prefixes (s.prefixToCheck p) = true ∧ matchesAnyConstraint v tag e.tags = true) ∧
    BareIsDefault v s p tag := by
  have hinline : Trusted v s { p with tag := p.tagOf tag } [] ↔ BareIsDefault v s p tag := trusted_inline
  have hbinary : getExecutablePath v s p tag = getExecutablePath v s { p with tag := p.tagOf tag } [] :=
    getExecutablePath_eq
  rw [hinline, hbinary]
  by_cases htag : tag = []
  · subst htag
    simp [trusted_inline, ParsedImage.tagOf]
  · have hrunner : getRunner v s p tag = select (s.builtInExecutorCache p.baseName) fun e =>
      matchesConfigTags v tag e.tags := if_pos htag
    have htagOf : p.tagOf tag = tag := if_pos htag
    rw [Trusted, binary_suits_iff, hrunner, select_suits, htagOf]
    constructor
    · rintro ⟨⟨hsuits, hbare⟩, -, hforms, -⟩
      have hforms := select_eq_select.mp hforms
      refine ⟨fun _ e he hok => ⟨(hsuits e he hok).1, ?_⟩, hbare⟩
      exact (Bool.and_eq_true_iff.mp ((hforms e he).mpr hok)).1
    · rintro ⟨hbuiltin, hbare⟩
      have hbuiltin := hbuiltin htag
      refine ⟨⟨fun e he hok => ⟨(hbuiltin e he hok).1, by rwa [htagOf]⟩, hbare⟩, hbare, ?_, rfl⟩
      refine select_eq_select.mpr fun e he => ⟨fun hok => ?_, fun hok => ?_⟩
      · exact matchesConfigTags_of_any (Bool.and_eq_true_iff.mp hok).1
      · exact Bool.and_eq_true_iff.mpr (hbuiltin e he hok).symm

/-! A builtin function and an image of another registry -/

/-- Versions are compared as texts. -/
def plainVersions : Semver := ⟨Str, some, fun c => some (· = c)⟩

/-- The builtin function `set-namespace`, under the default prefix. -/
def namespaceStore : FunctionConfigStore Unit where
  defaultImagePrefix := "ghcr.io/kptdev"
  builtInExecutorCache name :=
    if name = "set-namespace" then some ⟨(), ["v0.4.1"], [[]]⟩ else none
  binaryExecutorCache _ := none

/-- An image of another registry, with its tag as a constraint and inline. -/
theorem other_registry_runs_builtin :
    getRunner plainVersions namespaceStore (parse (· = "evil.io".toList) "evil.io/set-namespace".toList)
        "v0.4.1".toList = some () ∧
      getRunner plainVersions namespaceStore
        (parse (· = "evil.io".toList) "evil.io/set-namespace:v0.4.1".toList) [] = none := by
  decide +kernel

end Porch.FunctionConfigs
