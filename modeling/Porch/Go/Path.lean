import Porch.Go.Strings

/- Slash-separated paths: `filepath.Clean` and `filepath.Join` on Unix. `clean`
   goes through the elements from left to right and keeps the elements of the
   cleaned path, as the documentation of `Clean` describes it: empty and `.`
   elements are dropped, an inner `..` takes the element before it away, and a
   `..` at the start of a rooted path is dropped.

     filepath.Clean(s)    clean s
     filepath.Join(e...)  joinPath [e, ...] -/
namespace Go

open List

/-- One element of `filepath.Clean`, on the elements kept so far. -/
def cleanStep (rooted : Bool) (kept : List Str) (e : Str) : List Str :=
  if e = [] ∨ e = ['.'] then kept
  else if e = ['.', '.'] then
    match kept.getLast? with
    | some top => if top = ['.', '.'] then kept ++ [e] else kept.dropLast
    | none => if rooted then kept else kept ++ [e]
  else kept ++ [e]

def clean (s : Str) : Str :=
  let rooted := s.head? = some '/'
  let kept := (s.splitOn '/').foldl (cleanStep rooted) []
  let out := (if rooted then ['/'] else []) ++ join '/' kept
  if out = [] then ['.'] else out

/-- `filepath.Join`: leading empty elements are skipped, the rest is cleaned. -/
def joinPath (elems : List Str) : Str :=
  match elems.dropWhile List.isEmpty with
  | [] => []
  | es => clean (join '/' es)

def pathElems (s : Str) : List Str := (s.splitOn '/').filter (· ≠ [])

/-- A path element that `filepath.Clean` keeps as it is, or drops when empty. -/
def PlainElem (e : Str) : Prop := e ≠ ['.'] ∧ e ≠ ['.', '.']

instance (e : Str) : Decidable (PlainElem e) :=
  inferInstanceAs (Decidable (e ≠ ['.'] ∧ e ≠ ['.', '.']))

theorem plainElem_of_no_dot {e : Str} (h : '.' ∉ e) : PlainElem e :=
  ⟨fun he => h (by simp [he]), fun he => h (by simp [he])⟩

theorem mem_pathElems {s e : Str} (h : e ∈ pathElems s) : e ∈ s.splitOn '/' ∧ e ≠ [] := by
  simpa [pathElems] using h

section Clean

variable {rooted : Bool} {es kept : List Str} {e s pkg : Str}

theorem cleanStep_of_plain (h : PlainElem e) :
    cleanStep rooted kept e = kept ++ [e].filter (· ≠ []) := by
  by_cases he : e = []
  · simp [cleanStep, he]
  · simp [cleanStep, he, h.1, h.2]

theorem foldl_cleanStep_of_plain (h : ∀ e ∈ es, PlainElem e) :
    es.foldl (cleanStep rooted) kept = kept ++ es.filter (· ≠ []) := by
  induction es generalizing kept with
  | nil => simp
  | cons e es ih =>
    rw [foldl_cons, cleanStep_of_plain (h e (by simp)), ih fun x hx => h x (by simp [hx]),
      append_assoc, ← filter_append, singleton_append]

theorem clean_of_plain (h : ∀ e ∈ s.splitOn '/', PlainElem e) (hne : pathElems s ≠ []) :
    clean s = (if s.head? = some '/' then ['/'] else []) ++ join '/' (pathElems s) := by
  obtain ⟨e, he⟩ := exists_mem_of_ne_nil _ hne
  obtain ⟨x, hx⟩ := exists_mem_of_ne_nil e (mem_pathElems he).2
  have hout : join '/' (pathElems s) ≠ [] := ne_nil_of_mem (mem_join_of_mem he hx)
  have hkept : (s.splitOn '/').foldl (cleanStep (decide (s.head? = some '/'))) [] = pathElems s :=
    foldl_cleanStep_of_plain h
  simp only [clean, hkept]
  rw [if_neg]
  intro hnil
  exact hout (append_eq_nil_iff.mp hnil).2

theorem pathElems_leaf (hne : pkg ≠ []) (hslash : '/' ∉ pkg) : pathElems pkg = [pkg] := by
  simp [pathElems, splitOn_eq_singleton hslash, hne]

theorem splitOn_join_flatMap (hne : es ≠ []) :
    (join '/' es).splitOn '/' = es.flatMap (List.splitOn '/') := by
  induction es with
  | nil => exact absurd rfl hne
  | cons e es ih =>
    by_cases hes : es = []
    · rw [hes, join_singleton, flatMap_singleton]
    · rw [join_cons hes, splitOn_append_cons_self, ih hes, flatMap_cons]

/-- Joining paths without dots keeps their non-empty elements, and the leading slash. -/
theorem joinPath_of_plain (h : ∀ s ∈ es, ∀ e ∈ s.splitOn '/', PlainElem e)
    (hne : es.flatMap pathElems ≠ []) : joinPath es =
      (if es.flatten.head? = some '/' then ['/'] else []) ++ join '/' (es.flatMap pathElems) := by
  induction es with
  | nil => exact absurd rfl hne
  | cons s es ih =>
    cases s with
    | nil => -- a leading empty element is skipped
      exact ih (fun x hx => h x (mem_cons_of_mem _ hx)) hne
    | cons x xs =>
      have hsplit := splitOn_join_flatMap (cons_ne_nil (x :: xs) es)
      have helems : pathElems (join '/' ((x :: xs) :: es)) = ((x :: xs) :: es).flatMap pathElems := by
        rw [pathElems, hsplit, filter_flatMap]
        rfl
      have hhead : (join '/' ((x :: xs) :: es)).head? = some x := by
        by_cases hes : es = []
        · rw [hes, join_singleton]
          rfl
        · rw [join_cons hes]
          rfl
      show clean (join '/' ((x :: xs) :: es)) = _
      rw [clean_of_plain _ (by rw [helems]; exact hne), helems, hhead]
      · rfl
      · intro e he
        rw [hsplit] at he
        obtain ⟨s, hs, he⟩ := mem_flatMap.mp he
        exact h s hs e he

/-- Joining a directory and a leaf name keeps the non-empty elements of the
    directory, and its leading slash. -/
theorem joinPath_dir_leaf (hs : ∀ e ∈ s.splitOn '/', PlainElem e) (hpkg : PlainElem pkg)
    (hne : pkg ≠ []) (hslash : '/' ∉ pkg) : joinPath [s, pkg] =
      (if s.head? = some '/' then ['/'] else []) ++ join '/' (pathElems s ++ [pkg]) := by
  have helems : [s, pkg].flatMap pathElems = pathElems s ++ [pkg] := by
    simp [pathElems_leaf hne hslash]
  have hhead : [s, pkg].flatten.head? = some '/' ↔ s.head? = some '/' := by
    cases s with
    | nil => simpa using fun hh => hslash (mem_of_mem_head? hh)
    | cons x xs => rfl
  rw [joinPath_of_plain _ (by simp [helems]), helems, if_congr hhead rfl rfl]
  simpa [splitOn_eq_singleton hslash, hpkg] using hs

end Clean

section PlainPath

variable {s a b w : Str} {es : List Str}

/-- A path that cleaning leaves as it is: its elements are not empty and not dots. -/
def PlainPath (s : Str) : Prop := ∀ e ∈ s.splitOn '/', e ≠ [] ∧ PlainElem e

instance (s : Str) : Decidable (PlainPath s) :=
  inferInstanceAs (Decidable (∀ e ∈ s.splitOn '/', e ≠ [] ∧ PlainElem e))

theorem PlainPath.ne_nil (h : PlainPath s) : s ≠ [] := by
  intro hs
  subst hs
  exact (h [] (by simp)).1 rfl

theorem PlainPath.pathElems (h : PlainPath s) : pathElems s = s.splitOn '/' := by
  rw [Go.pathElems, filter_eq_self]
  intro e he
  exact decide_eq_true (h e he).1

theorem PlainPath.join_pathElems (h : PlainPath s) : join '/' (Go.pathElems s) = s := by
  rw [h.pathElems, join_splitOn]

theorem PlainPath.head (h : PlainPath s) : s.head? ≠ some '/' := by
  intro hhead
  cases s with
  | nil => cases hhead
  | cons x xs =>
    have hx : x = '/' := Option.some.inj hhead
    subst hx
    have hmem : [] ∈ ('/' :: xs).splitOn '/' := by
      rw [show '/' :: xs = [] ++ '/' :: xs from rfl, splitOn_append_cons_self]
      simp
    exact (h [] hmem).1 rfl

theorem plainPath_append : PlainPath (a ++ '/' :: b) ↔ PlainPath a ∧ PlainPath b := by
  unfold PlainPath
  rw [splitOn_append_cons_self]
  simp only [mem_append]
  exact ⟨fun h => ⟨fun e he => h e (.inl he), fun e he => h e (.inr he)⟩,
    fun h e he => he.elim (h.1 e) (h.2 e)⟩

theorem plainPath_leaf (hslash : '/' ∉ w) : PlainPath w ↔ w ≠ [] ∧ PlainElem w := by
  rw [PlainPath, splitOn_eq_singleton hslash]
  simp

theorem PlainPath.pathElems_ne_nil (h : PlainPath s) : Go.pathElems s ≠ [] := by
  intro hnil
  have hs := h.join_pathElems
  rw [hnil] at hs
  exact h.ne_nil hs.symm

theorem pathElems_append : pathElems (a ++ '/' :: b) = pathElems a ++ pathElems b := by
  rw [pathElems, splitOn_append_cons_self, filter_append]
  rfl

theorem pathElems_trim (s : Str) : pathElems (trim '/' s) = pathElems s := by
  have hend : ∀ s : Str, pathElems (s.rdropWhile (· = '/')) = pathElems s := by
    intro s
    induction s using reverseRecOn with
    | nil => rfl
    | append_singleton s c ih =>
      by_cases hc : c = '/'
      · rw [hc, rdropWhile_concat_pos _ _ _ (by simp), ih, pathElems_append]
        exact (append_nil _).symm
      · rw [rdropWhile_concat_neg _ _ _ (by simpa using hc)]
  induction s with
  | nil => rfl
  | cons c s ih =>
    by_cases hc : c = '/'
    · rw [hc, trim_cons_self, ih]
      exact (pathElems_append (a := [])).symm
    · rw [trim, dropWhile_cons_of_neg (by simpa using hc), hend]

/-- Joining paths that are plain or empty keeps their elements. -/
theorem joinPath_elems (h : ∀ e ∈ es, e = [] ∨ PlainPath e) (hne : es.flatMap pathElems ≠ []) :
    joinPath es = join '/' (es.flatMap pathElems) := by
  rw [joinPath_of_plain _ hne, if_neg, nil_append]
  · intro hhead
    rw [head?_flatten] at hhead
    obtain ⟨s, hs, hhead⟩ := exists_of_findSome?_eq_some hhead
    obtain rfl | hplain := h s hs
    · cases hhead
    · exact hplain.head hhead
  · intro s hs e he
    obtain rfl | hplain := h s hs
    · rw [splitOn_nil, mem_singleton] at he
      exact plainElem_of_no_dot (by simp [he])
    · exact (hplain e he).2

theorem joinPath_two (ha : PlainPath a) (hb : PlainPath b) : joinPath [a, b] = a ++ '/' :: b := by
  have hab := plainPath_append.mpr ⟨ha, hb⟩
  have helems : [a, b].flatMap pathElems = pathElems (a ++ '/' :: b) := by simp [pathElems_append]
  rw [joinPath_elems (by simp [ha, hb]) (helems ▸ hab.pathElems_ne_nil), helems, hab.join_pathElems]

theorem joinPath_slash (ha : PlainPath a) (hb : PlainPath b) :
    joinPath [a, '/' :: b] = a ++ '/' :: b := by
  have hjoin : joinPath [a, '/' :: b] = joinPath [a, [], b] := by
    cases a with
    | nil => exact absurd rfl ha.ne_nil
    | cons x xs => rfl
  have helems : [a, [], b].flatMap pathElems = [a, b].flatMap pathElems := rfl
  rw [hjoin, joinPath_elems (by simp [ha, hb]) (by simp [ha.pathElems_ne_nil]), helems,
    ← joinPath_elems (by simp [ha, hb]) (by simp [ha.pathElems_ne_nil]), joinPath_two ha hb]

end PlainPath

section Base

variable {s e : Str} {es : List Str}

def base (s : Str) : Option Str := (s.splitOn '/').getLast?

theorem base_leaf (hslash : '/' ∉ e) : base e = some e := by
  simp [base, splitOn_eq_singleton hslash]

theorem base_append (hslash : '/' ∉ e) : base (s ++ '/' :: e) = some e := by
  simp [base, splitOn_append_cons_self, splitOn_eq_singleton hslash]

theorem cleanStep_leaf {rooted : Bool} {kept : List Str} (hne : e ≠ []) (hplain : PlainElem e) :
    cleanStep rooted kept e = kept ++ [e] := by
  simp [cleanStep, hne, hplain.1, hplain.2]

theorem base_clean (hs : s.splitOn '/' = es ++ [e]) (hne : e ≠ [])
    (hslash : '/' ∉ e) (hplain : PlainElem e) : base (clean s) = some e := by
  unfold clean
  dsimp only
  rw [hs, foldl_concat, cleanStep_leaf hne hplain]
  generalize foldl _ [] es = kept
  have hout : ∀ front : Str, front ++ join '/' (kept ++ [e]) ≠ [] := by
    intro front hnil
    have hjoin := (append_eq_nil_iff.mp hnil).2
    by_cases hkept : kept = []
    · simp [hkept, hne] at hjoin
    · simp [join_concat hkept] at hjoin
  rw [if_neg (hout _)]
  by_cases hkept : kept = []
  · rw [hkept, nil_append, join_singleton]
    split
    · exact base_append (s := []) hslash
    · exact base_leaf hslash
  · rw [join_concat hkept, ← append_assoc]
    exact base_append hslash

theorem base_joinPath (hne : e ≠ []) (hslash : '/' ∉ e) (hplain : PlainElem e) :
    base (joinPath [s, e]) = some e := by
  have hempty : e.isEmpty = false := by simpa using hne
  have hleaf : e.splitOn '/' = [] ++ [e] := splitOn_eq_singleton hslash
  by_cases hs : s = []
  · simpa [joinPath, hs, dropWhile_cons, hempty] using base_clean hleaf hne hslash hplain
  · have hsEmpty : s.isEmpty = false := by simpa using hs
    have hsplit : (s ++ '/' :: e).splitOn '/' = s.splitOn '/' ++ [e] := by
      rw [splitOn_append_cons_self, hleaf]
      rfl
    simpa [joinPath, dropWhile_cons, hsEmpty, join_cons] using base_clean hsplit hne hslash hplain

end Base

end Go
