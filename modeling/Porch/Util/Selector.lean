import Porch.Go.Strings

/- The file paths in a query for the resources of a package revision. A resource name has no
   "/", so ":" stands for it, and a literal ":" or "\" has a "\" before it.

     decodeFilePath  decodeFrom, decodeFilePath

   The scanner looks at single bytes and copies those that it does not know, so the results
   hold with one `Char` for each byte as well. -/
namespace Porch.Util.Selector

open Go

/-- The error of this text: invalid escape sequence in file path. -/
structure InvalidEscape where
  rawFilePath : Str
deriving DecidableEq, Repr

/-- The loop from a place on in the raw path: what is written from there. -/
def decodeFrom : Str → Option Str
  | [] => some []
  | c :: s =>
    if c = '\\' then
      -- `i++`, and the end of the string is no escape
      match s with
      | [] => none
      | d :: s => if d = ':' ∨ d = '\\' then (decodeFrom s).map (d :: ·) else none
    else if c = ':' then (decodeFrom s).map ('/' :: ·)
    else (decodeFrom s).map (c :: ·)

def decodeFilePath (rawFilePath : Str) : Except InvalidEscape Str :=
  match decodeFrom rawFilePath with
  | some decoded => .ok decoded
  | none => .error ⟨rawFilePath⟩

/-- No query value at all stays apart from an empty list of them. -/
def decodeFilePaths : Option (List Str) → Except InvalidEscape (Option (List Str))
  | none => .ok none
  | some rawFilePaths => some <$> rawFilePaths.mapM decodeFilePath

/-! The escaped form -/

def escapeChar (c : Char) : Str :=
  if c = '\\' ∨ c = ':' then ['\\', c] else if c = '/' then [':'] else [c]

/-- How a path is written in a query. -/
def escapeFilePath (p : Str) : Str := p.flatMap escapeChar

variable {s p : Str}

theorem decodeFilePath_eq_ok : decodeFilePath s = .ok p ↔ decodeFrom s = some p := by
  unfold decodeFilePath
  cases decodeFrom s <;> simp

theorem decodeFrom_escape (p : Str) : decodeFrom (escapeFilePath p) = some p := by
  induction p with
  | nil => rfl
  | cons c p ih =>
    have hcons : escapeFilePath (c :: p) = escapeChar c ++ escapeFilePath p := List.flatMap_cons
    rw [hcons, escapeChar]
    by_cases hescaped : c = '\\' ∨ c = ':'
    · simp [hescaped, decodeFrom, ih, hescaped.symm]
    · obtain ⟨hbackslash, hcolon⟩ := not_or.mp hescaped
      by_cases hslash : c = '/'
      · rw [if_neg hescaped, if_pos hslash, decodeFrom.eq_def]
        simp [hslash, ih]
      · rw [if_neg hescaped, if_neg hslash, decodeFrom.eq_def]
        simp [hbackslash, hcolon, ih]

/-- What is accepted without "/" is the escaped form of what it is decoded to. -/
theorem escape_decodeFrom (hslash : '/' ∉ s) (h : decodeFrom s = some p) : escapeFilePath p = s := by
  fun_induction decodeFrom s generalizing p with
  | case1 =>
    cases h
    rfl
  | case2 => cases h
  | case3 s d hd ih =>
    obtain ⟨q, hq, rfl⟩ := Option.map_eq_some_iff.mp h
    have hrest := ih (by grind) hq
    simp [escapeFilePath, escapeChar, hd.symm, ← hrest]
  | case4 => cases h
  | case5 s hne ih =>
    obtain ⟨q, hq, rfl⟩ := Option.map_eq_some_iff.mp h
    have hrest := ih (by grind) hq
    simp [escapeFilePath, escapeChar, ← hrest]
  | case6 c s hbackslash hcolon ih =>
    obtain ⟨q, hq, rfl⟩ := Option.map_eq_some_iff.mp h
    have hrest := ih (by grind) hq
    have hc : c ≠ '/' := by grind
    simp [escapeFilePath, escapeChar, hbackslash, hcolon, hc, ← hrest]

/-- **The escaped form and `decodeFilePath` are inverse to each other** on the strings
    without "/" that are accepted. -/
theorem escaped_paths_decoded :
    (∀ p, decodeFilePath (escapeFilePath p) = .ok p) ∧
      (∀ s, '/' ∉ s → ((∃ p, decodeFilePath s = .ok p) ↔ ∃ p, s = escapeFilePath p)) ∧
      ∀ s t p q, '/' ∉ s → '/' ∉ t → decodeFilePath s = .ok p → decodeFilePath t = .ok q → s ≠ t → p ≠ q := by
  simp only [decodeFilePath_eq_ok]
  refine ⟨decodeFrom_escape, fun s hslash => ⟨?_, ?_⟩, ?_⟩
  · rintro ⟨p, h⟩
    exact ⟨p, (escape_decodeFrom hslash h).symm⟩
  · rintro ⟨p, rfl⟩
    exact ⟨p, decodeFrom_escape p⟩
  · rintro s t p q hs ht hp hq hne rfl
    exact hne ((escape_decodeFrom hs hp).symm.trans (escape_decodeFrom ht hq))

/-- The paths of a query come back as they were. -/
theorem decodeFilePaths_escape (ps : List Str) :
    decodeFilePaths (some (ps.map escapeFilePath)) = .ok (some ps) := by
  have hmap : (ps.map escapeFilePath).mapM decodeFilePath = .ok ps := by
    induction ps with
    | nil => rfl
    | cons p ps ih =>
      rw [List.map_cons, List.mapM_cons, decodeFilePath_eq_ok.mpr (decodeFrom_escape p), ih]
      rfl
  rw [decodeFilePaths, hmap]
  rfl

end Porch.Util.Selector
