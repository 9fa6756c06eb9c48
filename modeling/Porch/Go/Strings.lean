import Mathlib

/- Go strings as lists of characters, with the functions of package `strings`
   that the modelled code calls. Every separator and every replaced text in
   that code is a single character, so `Split`, `Join`, `ReplaceAll` and `Trim`
   take a `Char`; `LastIndex` and `Contains` take a whole string.

     strings.Split(s, "c")            List.splitOn c s
     strings.Join(l, "c")             join c l
     strings.ReplaceAll(s, "a", "b")  replaceChar a b s
     strings.ReplaceAll(s, "a", "")   removeChar a s
     strings.Trim(s, "c")             trim c s
     strings.LastIndex(s, t)          lastIndex t s
     strings.Contains(s, t)           t <:+: s

   The lemmas say how these act on a string written as its components, which is
   the form in which a codec over separated names is reasoned about. -/
namespace Go

open List

abbrev Str := List Char

/-- A string literal is written as such. -/
instance : Coe String Str := ⟨String.toList⟩

instance : LawfulBEq Str := List.instLawfulBEq

/-- `strings.Join` with a one-character separator. -/
def join (c : Char) (parts : List Str) : Str := [c].intercalate parts

/-- `strings.ReplaceAll(s, old, new)` for single characters. -/
def replaceChar (old new : Char) (s : Str) : Str :=
  s.map fun c => if c = old then new else c

/-- `strings.ReplaceAll(s, old, "")` for a single character. -/
def removeChar (old : Char) (s : Str) : Str := s.filter (· ≠ old)

/-- `strings.Trim(s, c)`: `c` removed from both ends. -/
def trim (c : Char) (s : Str) : Str := (s.dropWhile (· = c)).rdropWhile (· = c)

/-- `strings.LastIndex(s, sub)`: where the last occurrence of `sub` starts, -1
    if there is none. -/
def lastIndex (sub : Str) : Str → Int
  | [] => if sub = [] then 0 else -1
  | c :: s =>
    if 0 ≤ lastIndex sub s then lastIndex sub s + 1
    else if sub <+: c :: s then 0 else -1

/-- `strconv.Atoi` on 64 bits. -/
def atoi (s : Str) : Option Int :=
  let (neg, digits) := match s with
    | '-' :: ds => (true, ds)
    | '+' :: ds => (false, ds)
    | ds => (false, ds)
  if digits = [] || !digits.all (fun c => '0' ≤ c && c ≤ '9') then none
  else
    let n := digits.foldl (fun acc c => acc * 10 + (c.toNat - '0'.toNat)) 0
    let i : Int := if neg then -n else n
    if -2 ^ 63 ≤ i && i < 2 ^ 63 then some i else none

theorem atoi_eq_none {c : Char} {s : Str} (hdigit : ('0' ≤ c && c ≤ '9') = false)
    (hminus : c ≠ '-') (hplus : c ≠ '+') : atoi (c :: s) = none := by
  unfold atoi
  split
  rename_i neg digits heq
  have hdigits : digits = c :: s := by
    split at heq
    · rename_i h
      cases h
      exact absurd rfl hminus
    · rename_i h
      cases h
      exact absurd rfl hplus
    · cases heq
      rfl
  rw [hdigits, all_cons, hdigit]
  rfl

theorem foldl_toDigits (n : Nat) :
    (Nat.toDigits 10 n).foldl (fun acc c => acc * 10 + (c.toNat - '0'.toNat)) 0 = n :=
  calc (Nat.toDigits 10 n).foldl (fun acc c => acc * 10 + (c.toNat - '0'.toNat)) 0
      = (Nat.toDigits 10 n).foldl (fun acc c => 10 * acc + (c.toNat - '0'.toNat)) 0 := by
        simp only [Nat.mul_comm]
    _ = Nat.ofDigitChars 10 (Nat.toDigits 10 n) 0 := Nat.ofDigitChars_eq_foldl.symm
    _ = n := Nat.ofDigitChars_ten_toDigits

theorem isDigit_of_mem_toDigits {n : Nat} {c : Char} (hc : c ∈ Nat.toDigits 10 n) :
    c.isDigit = true :=
  Nat.isDigit_of_mem_toDigits (by decide) (by decide) hc

theorem all_toDigits (n : Nat) : (Nat.toDigits 10 n).all (fun c => '0' ≤ c && c ≤ '9') = true := by
  rw [all_eq_true]
  intro c hc
  simpa [Char.isDigit, Char.le_def] using isDigit_of_mem_toDigits hc

theorem atoi_digits {s : Str} (hs : ∀ c ∈ s, c.isDigit = true) : atoi s =
      if s ≠ [] ∧ Nat.ofDigitChars 10 s 0 < 2 ^ 63 then some (Nat.ofDigitChars 10 s 0 : Int) else none := by
  have hvalue : s.foldl (fun acc c => acc * 10 + (c.toNat - '0'.toNat)) 0 = Nat.ofDigitChars 10 s 0 := by
    simp only [Nat.ofDigitChars_eq_foldl, Nat.mul_comm]
  have hall : s.all (fun c => '0' ≤ c && c ≤ '9') = true :=
    all_eq_true.mpr fun c hc => by simpa [Char.isDigit, Char.le_def] using hs c hc
  unfold atoi
  split
  rename_i neg digits heq
  have hsame : neg = false ∧ digits = s := by
    split at heq
    · cases hs '-' mem_cons_self
    · cases hs '+' mem_cons_self
    · cases heq
      exact ⟨rfl, rfl⟩
  obtain ⟨rfl, rfl⟩ := hsame
  simp only [hall, hvalue]
  grind

theorem atoi_toDigits {n : Nat} (h : n < 2 ^ 63) : atoi (Nat.toDigits 10 n) = some (n : Int) := by
  rw [atoi_digits fun c => isDigit_of_mem_toDigits, Nat.ofDigitChars_ten_toDigits]
  exact if_pos ⟨Nat.toDigits_ne_nil, h⟩

theorem atoi_neg_toDigits {n : Nat} (h : n ≤ 2 ^ 63) :
    atoi ('-' :: Nat.toDigits 10 n) = some (-n : Int) := by
  simp only [atoi, all_toDigits, foldl_toDigits, Nat.toDigits_ne_nil]
  simp
  omega

/-! Joining components -/

section Join

variable {c : Char} {s : Str} {parts parts' : List Str}

@[simp] theorem join_nil : join c [] = [] := rfl

@[simp] theorem join_singleton : join c [s] = s := intercalate_singleton

theorem join_cons (h : parts ≠ []) : join c (s :: parts) = s ++ c :: join c parts := by
  unfold join
  rw [intercalate_cons_of_ne_nil h]
  simp

theorem join_append (h : parts ≠ []) (h' : parts' ≠ []) :
    join c (parts ++ parts') = join c parts ++ c :: join c parts' := by
  induction parts with
  | nil => exact absurd rfl h
  | cons p ps ih =>
    by_cases hps : ps = []
    · subst hps
      simp [join_cons h']
    · rw [cons_append, join_cons (by simp [hps]), join_cons hps, ih hps]
      simp

theorem join_concat (h : parts ≠ []) : join c (parts ++ [s]) = join c parts ++ c :: s := by
  rw [join_append h (by simp), join_singleton]

theorem mem_join {x : Char} (h : x ∈ join c parts) : x = c ∨ ∃ p ∈ parts, x ∈ p := by
  induction parts with
  | nil => simp at h
  | cons p ps ih =>
    by_cases hps : ps = []
    · subst hps
      exact .inr ⟨p, by simp, by simpa using h⟩
    · rw [join_cons hps, mem_append, mem_cons] at h
      rcases h with h | h | h
      · exact .inr ⟨p, by simp, h⟩
      · exact .inl h
      · rcases ih h with h | ⟨q, hq, hx⟩
        · exact .inl h
        · exact .inr ⟨q, by simp [hq], hx⟩

theorem mem_join_of_mem {x : Char} {p : Str} (hp : p ∈ parts) (hx : x ∈ p) : x ∈ join c parts := by
  induction parts with
  | nil => simp at hp
  | cons q ps ih =>
    by_cases hps : ps = []
    · subst hps
      simp only [mem_singleton] at hp
      simpa [← hp] using hx
    · rw [join_cons hps, mem_append, mem_cons]
      rcases mem_cons.mp hp with rfl | hp
      · exact .inl hx
      · exact .inr (.inr (ih hp))

theorem splitOn_join (h : ∀ p ∈ parts, c ∉ p) (hne : parts ≠ []) :
    (join c parts).splitOn c = parts :=
  splitOn_intercalate c h hne

theorem join_splitOn : join c (s.splitOn c) = s := intercalate_splitOn c

theorem not_mem_of_mem_splitOn (n : Nat) (s : Str) (hn : s.length ≤ n) :
    ∀ p ∈ s.splitOn c, c ∉ p := by
  induction n generalizing s with
  | zero =>
    have : s = [] := length_eq_zero_iff.mp (Nat.le_zero.mp hn)
    simp [this]
  | succ n ih =>
    by_cases hc : c ∈ s
    · obtain ⟨a, b, rfl, ha⟩ := eq_append_cons_of_mem hc
      rw [splitOn_append_cons_self_of_not_mem ha]
      intro p hp
      rcases mem_cons.mp hp with rfl | hp
      · exact ha
      · refine ih b ?_ p hp
        simp only [length_append, length_cons] at hn
        omega
    · rw [splitOn_eq_singleton hc]
      simpa using hc

theorem not_mem_of_splitOn {p : Str} (hp : p ∈ s.splitOn c) : c ∉ p :=
  not_mem_of_mem_splitOn s.length s le_rfl p hp

theorem eq_join_of_splitOn (h : s.splitOn c = parts) : s = join c parts ∧ ∀ p ∈ parts, c ∉ p := by
  subst h
  exact ⟨join_splitOn.symm, fun p hp => not_mem_of_splitOn hp⟩

theorem forall_mem_parts {P : Str → Prop} {t : Str} :
    (∀ p ∈ s :: parts ++ [t], P p) ↔ P s ∧ (∀ p ∈ parts, P p) ∧ P t := by
  simp [or_imp, forall_and]

theorem nil_mem_splitOn (h : [] ∈ s.splitOn c) :
    s = [] ∨ s.head? = some c ∨ s.getLast? = some c ∨ [c, c] <:+: s := by
  obtain ⟨l, l', hl⟩ := append_of_mem h
  have hs : s = join c (l ++ [] :: l') := by rw [← hl, join_splitOn]
  by_cases hleft : l = [] <;> by_cases hright : l' = []
  · exact .inl (by simp [hs, hleft, hright])
  · exact .inr (.inl (by simp [hs, hleft, join_cons hright]))
  · exact .inr (.inr (.inl (by simp [hs, hright, join_concat hleft])))
  · refine .inr (.inr (.inr ⟨join c l, join c l', ?_⟩))
    rw [hs, join_append hleft (by simp), join_cons hright]
    simp

theorem nil_mem_splitOn_of_double (h : [c, c] <:+: s) : [] ∈ s.splitOn c := by
  obtain ⟨a, b, rfl⟩ := h
  have : a ++ [c, c] ++ b = a ++ c :: ([] ++ c :: b) := by simp
  rw [this, splitOn_append_cons_self, splitOn_append_cons_self]
  simp

theorem foldl_append_eq_join (s : Str) (parts : List Str) :
    parts.foldl (fun acc p => acc ++ c :: p) s = join c (s :: parts) := by
  induction parts generalizing s with
  | nil => simp
  | cons p ps ih =>
    rw [foldl_cons, ih, join_cons (by simp : p :: ps ≠ [])]
    by_cases hps : ps = []
    · subst hps
      simp
    · rw [join_cons hps, join_cons hps]
      simp

end Join

/-! Replacing characters -/

section Replace

variable {a b c : Char} {s t : Str} {parts : List Str}

@[simp] theorem replaceChar_nil : replaceChar a b [] = [] := rfl

@[simp] theorem replaceChar_append :
    replaceChar a b (s ++ t) = replaceChar a b s ++ replaceChar a b t := map_append

@[simp] theorem replaceChar_self : replaceChar a b (a :: s) = b :: replaceChar a b s := by
  simp [replaceChar]

theorem replaceChar_of_not_mem (h : a ∉ s) : replaceChar a b s = s := by
  unfold replaceChar
  conv_rhs => rw [← map_id s]
  refine map_congr_left fun x hx => ?_
  have : x ≠ a := fun e => h (e ▸ hx)
  simp [this]

theorem not_mem_replaceChar (h : a ≠ b) : a ∉ replaceChar a b s := by
  intro hx
  obtain ⟨x, -, hx⟩ := mem_map.mp hx
  split at hx
  · exact h hx.symm
  · next hne => exact hne hx

theorem replaceChar_join (h : ∀ p ∈ parts, a ∉ p) :
    replaceChar a b (join a parts) = join b parts := by
  induction parts with
  | nil => rfl
  | cons p ps ih =>
    have hp : a ∉ p := h p (by simp)
    by_cases hps : ps = []
    · subst hps
      simp [replaceChar_of_not_mem hp]
    · rw [join_cons hps, join_cons hps, replaceChar_append, replaceChar_self,
        replaceChar_of_not_mem hp, ih fun q hq => h q (by simp [hq])]

end Replace

/-! Trimming and the last occurrence -/

section Trim

variable {c : Char} {s : Str}

theorem trim_eq_self (hs : s ≠ []) (hhead : s.head hs ≠ c) (hlast : s.getLast hs ≠ c) :
    trim c s = s := by
  have hdrop : s.dropWhile (· = c) = s := by
    cases s with
    | nil => rfl
    | cons x xs => simp [show x ≠ c from hhead]
  unfold trim
  rw [hdrop, rdropWhile_eq_self_iff]
  intro _
  simpa using hlast

@[simp] theorem trim_cons_self : trim c (c :: s) = trim c s := by
  simp [trim]

theorem trim_join {parts : List Str} (hne : parts ≠ []) (h : ∀ p ∈ parts, p ≠ [] ∧ c ∉ p) :
    trim c (join c parts) = join c parts := by
  have hhead : ∃ x xs, join c parts = x :: xs ∧ x ≠ c := by
    obtain ⟨p, ps, rfl⟩ := exists_cons_of_ne_nil hne
    obtain ⟨hp, hc⟩ := h p (by simp)
    obtain ⟨x, xs, rfl⟩ := exists_cons_of_ne_nil hp
    have hx : x ≠ c := fun e => hc (by simp [e])
    by_cases hps : ps = []
    · exact ⟨x, xs, by simp [hps], hx⟩
    · exact ⟨x, xs ++ c :: join c ps, by simp [join_cons hps], hx⟩
  have hlast : ∃ x xs, join c parts = xs ++ [x] ∧ x ≠ c := by
    obtain ⟨ps, p, rfl⟩ := (eq_nil_or_concat' parts).resolve_left hne
    obtain ⟨hp, hc⟩ := h p (by simp)
    obtain ⟨xs, x, rfl⟩ := (eq_nil_or_concat' p).resolve_left hp
    have hx : x ≠ c := fun e => hc (by simp [e])
    by_cases hps : ps = []
    · exact ⟨x, xs, by simp [hps], hx⟩
    · exact ⟨x, join c ps ++ c :: xs, by simp [join_concat hps], hx⟩
  obtain ⟨x, xs, hxs, hx⟩ := hhead
  obtain ⟨y, ys, hys, hy⟩ := hlast
  refine trim_eq_self (by simp [hxs]) ?_ ?_
  · simpa [hxs] using hx
  · simpa [hys] using hy

end Trim

section LastIndex

variable {sub s : Str} {c : Char}

theorem lastIndex_eq_neg_one (h : ¬ sub <:+: s) : lastIndex sub s = -1 := by
  induction s with
  | nil =>
    have : sub ≠ [] := fun e => h (by simp [e])
    simp [lastIndex, this]
  | cons x xs ih =>
    have hxs : lastIndex sub xs = -1 := ih fun hi => h (infix_cons hi)
    have hpre : ¬ sub <+: x :: xs := fun hp => h hp.isInfix
    simp [lastIndex, hxs, hpre]

theorem lastIndex_append {b : Str} (h : 0 ≤ lastIndex sub b) (a : Str) :
    lastIndex sub (a ++ b) = a.length + lastIndex sub b := by
  induction a with
  | nil => simp
  | cons x xs ih =>
    have hpos : 0 ≤ lastIndex sub (xs ++ b) := by omega
    rw [cons_append, lastIndex, if_pos hpos, ih, length_cons]
    push_cast
    ring

theorem lastIndex_append_cons (a : Str) (hpre : sub <+: c :: s) (hlast : ¬ sub <:+: s) :
    lastIndex sub (a ++ c :: s) = a.length := by
  have h0 : lastIndex sub (c :: s) = 0 := by simp [lastIndex, lastIndex_eq_neg_one hlast, hpre]
  rw [lastIndex_append (by omega), h0, add_zero]

theorem exists_last_of_mem (h : c ∈ s) : ∃ a b, s = a ++ c :: b ∧ c ∉ b := by
  obtain ⟨a, b, hs, hb⟩ := eq_append_cons_of_mem (mem_reverse.mpr h)
  refine ⟨b.reverse, a.reverse, ?_, fun hmem => hb (mem_reverse.mp hmem)⟩
  rw [← reverse_reverse s, hs]
  simp

theorem lastIndex_char {a b : Str} (h : c ∉ b) : lastIndex [c] (a ++ c :: b) = a.length :=
  lastIndex_append_cons a ⟨b, rfl⟩ fun hi => h (hi.subset (mem_singleton.mpr rfl))

theorem lastIndex_char_of_not_mem (h : c ∉ s) : lastIndex [c] s = -1 :=
  lastIndex_eq_neg_one fun hi => h (hi.subset (mem_singleton.mpr rfl))

theorem take_drop_lastIndex {a b : Str} (h : c ∉ b) :
    (a ++ c :: b).take (lastIndex [c] (a ++ c :: b)).toNat = a ∧
      (a ++ c :: b).drop (lastIndex [c] (a ++ c :: b) + 1).toNat = b := by
  rw [lastIndex_char h]
  have hdrop : ((a.length : Int) + 1).toNat = a.length + 1 := by omega
  rw [Int.toNat_natCast, hdrop]
  exact ⟨take_left, by rw [drop_length_add_append]; rfl⟩

end LastIndex

end Go
