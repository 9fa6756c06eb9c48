import Porch.Go.Strings

/- Sizes of data such as "6MB", read, written, and as the value of a flag.

     strconv.FormatInt, %d        formatInt
     strconv.ParseInt(s, 10, 64)  atoi
     strconv.ParseInt(s, 0, 64)   splitBase, underscoreOK, parseUint, parseInt

   A flag reads the syntax of the integer flags first, with its prefixes and underscores, so
   a size that `Format` writes must not be a number there: it ends in "B", which is a digit
   only behind "0x", and only 0 begins with "0" (`data_size_exact`). -/
namespace Porch.Util.DataSize

open Go

/-! Package `strings` and package `strconv` -/

/-- `unicode.IsSpace` -/
def isSpace (c : Char) : Bool :=
  (9 ≤ c.toNat && c.toNat ≤ 13) || (0x2000 ≤ c.toNat && c.toNat ≤ 0x200a) ||
    c.toNat ∈ [0x20, 0x85, 0xa0, 0x1680, 0x2028, 0x2029, 0x202f, 0x205f, 0x3000]

def trimSpace (s : Str) : Str := (s.dropWhile isSpace).rdropWhile isSpace

/-- `unicode.ToUpper`, as far as it gives a letter of ASCII. No unit has another one. -/
def toUpper (c : Char) : Char := if c = 'ı' then 'I' else if c = 'ſ' then 'S' else c.toUpper

def formatInt : Int → Str
  | .ofNat n => Nat.toDigits 10 n
  | .negSucc n => '-' :: Nat.toDigits 10 (n + 1)

def basePrefix : Char → Option Nat
  | 'b' | 'B' => some 2
  | 'o' | 'O' => some 8
  | 'x' | 'X' => some 16
  | _ => none

/-- The base, and the digits behind its sign. -/
def splitBase : Str → Nat × Str
  | '0' :: c :: d :: s =>
    match basePrefix c with
    | some base => (base, d :: s)
    | none => (8, c :: d :: s)
  | '0' :: s => (8, s)
  | s => (10, s)

def digitValue (c : Char) : Option Nat :=
  if c.isDigit then some (c.toNat - '0'.toNat)
  else if c.isAlpha then some (c.toLower.toNat - 'a'.toNat + 10)
  else none

/-- Each underscore stands between digits; `saw` is the last character, of its kind. -/
def underscoresFrom (hex : Bool) : Char → Str → Bool
  | saw, [] => saw ≠ '_'
  | saw, c :: s =>
    if c.isDigit || (hex && 'a' ≤ c.toLower && c.toLower ≤ 'f') then underscoresFrom hex '0' s
    else if c = '_' then saw = '0' && underscoresFrom hex '_' s
    else saw ≠ '_' && underscoresFrom hex '!' s

def underscoreOK (s : Str) : Bool :=
  match s with
  | '0' :: c :: rest =>
    -- the prefix counts as a digit
    if (basePrefix c).isSome then underscoresFrom (basePrefix c = some 16) '0' rest
    else underscoresFrom false '^' s
  | _ => underscoresFrom false '^' s

/-- `strconv.ParseUint(s, 0, 64)` -/
def parseUint (s : Str) : Option Nat :=
  let (base, digits) := splitBase s
  let digits := digits.filter (· ≠ '_')
  if s = [] || !(digits.all fun c => (digitValue c).any (· < base)) then none
  else if digits.length < (splitBase s).2.length && !underscoreOK s then none
  else
    let n := digits.foldl (fun n c => n * base + (digitValue c).getD 0) 0
    if n < 2 ^ 64 then some n else none

/-- `strconv.ParseInt(s, 0, 64)`, without the error. -/
def parseInt : Str → Option Int
  | '-' :: s => ((parseUint s).filter (· ≤ 2 ^ 63)).map fun un => -un
  | '+' :: s | s => ((parseUint s).filter (· < 2 ^ 63)).map fun un => un

/-! Sizes -/

def maxInt64 : Int := 2 ^ 63 - 1

abbrev KB : Int := 2 ^ 10
abbrev MB : Int := 2 ^ 20
abbrev GB : Int := 2 ^ 30

/-- The sizes of the units by their names, in upper case. -/
def units : List (Str × Int) :=
  [("", 1), ("B", 1), ("KB", KB), ("KIB", KB), ("MB", MB), ("MIB", MB), ("GB", GB), ("GIB", GB)]

/-- The errors for a text. -/
inductive SizeError where
  /-- must start with a number -/
  | noNumber (s : Str)
  /-- the error of `ParseInt`, value out of range -/
  | outOfRange (s : Str)
  /-- unknown unit, must be one of B, KB, MB, GB, KiB, MiB, GiB -/
  | unknownUnit (s unitName : Str)
  /-- value is too large -/
  | tooLarge (s : Str)
deriving DecidableEq, Repr

def parse (s : Str) : Except SizeError Int :=
  let trimmed := trimSpace s
  let digits := trimmed.takeWhile Char.isDigit
  if digits = [] then .error (.noNumber s)
  else
    match atoi digits with
    | none => .error (.outOfRange s)
    | some number =>
      let unitName := trimSpace (trimmed.dropWhile Char.isDigit)
      match units.lookup (unitName.map toUpper) with
      | none => .error (.unknownUnit s unitName)
      | some unit =>
        if number > maxInt64 / unit then .error (.tooLarge s) else .ok ((number * unit).bmod (2 ^ 64))

def format (size : Int) : Str :=
  if size < 0 then formatInt size
  else if size = 0 then "0B"
  else if size % GB = 0 then formatInt (size / GB) ++ "GB".toList
  else if size % MB = 0 then formatInt (size / MB) ++ "MB".toList
  else if size % KB = 0 then formatInt (size / KB) ++ "KB".toList
  else formatInt size ++ "B".toList

/-- A flag value whose target, unless it is nil, is an integer of so many bits. -/
structure Value (bits : Nat) where
  target : Option (BitVec bits)
deriving DecidableEq, Repr

namespace Value

variable {bits : Nat} (v : Value bits)

def string : Str := v.target.elim [] fun t => format t.toInt

/-- The error, if there is one, and the value after the call. -/
def set (s : Str) : Option SizeError × Value bits :=
  match (parseInt s).elim (parse s) .ok with
  | .error err => (some err, v)
  | .ok size =>
    if (BitVec.ofInt bits size).toInt ≠ size then (some (.tooLarge s), v)
    else (none, ⟨some (BitVec.ofInt bits size)⟩)

end Value

/-! Digits -/

variable {n : Nat} {c : Char} {s name : Str} {u r : Int}

theorem head_toDigits (hn : 0 < n) : (Nat.toDigits 10 n).head? ≠ some '0' := by
  induction n using Nat.strong_induction_on with
  | _ n ih =>
    rw [Nat.toDigits_eq_if (by decide)]
    split
    · interval_cases n <;> decide
    · have hhead := ih (n / 10) (by omega) (by omega)
      cases hdigits : Nat.toDigits 10 (n / 10) with
      | nil => exact absurd hdigits Nat.toDigits_ne_nil
      | cons d ds => simpa [hdigits] using hhead

theorem splitBase_of_ne (hc : s.head? ≠ some '0') : splitBase s = (10, s) := by
  unfold splitBase
  split <;> simp_all

theorem not_isSpace_of_isDigit (hc : c.isDigit = true) : isSpace c = false := by
  have hnat : 48 ≤ c.toNat ∧ c.toNat ≤ 57 := by
    simpa [Char.isDigit, UInt32.le_iff_toNat_le] using hc
  simp [isSpace]
  omega

/-- A number that is not 0 is read as it is written. -/
theorem parseUint_toDigits (hpos : 0 < n) (hn : n < 2 ^ 64) : parseUint (Nat.toDigits 10 n) = some n := by
  have hvalue : ∀ c ∈ Nat.toDigits 10 n, digitValue c = some (c.toNat - '0'.toNat) := fun c hc =>
    if_pos (isDigit_of_mem_toDigits hc)
  have hfilter : (Nat.toDigits 10 n).filter (· ≠ '_') = Nat.toDigits 10 n := by
    refine List.filter_eq_self.mpr fun c hc => decide_eq_true ?_
    rintro rfl
    cases isDigit_of_mem_toDigits hc
  have hall : (Nat.toDigits 10 n).all (fun c => (digitValue c).any (· < 10)) = true := by
    rw [List.all_eq_true]
    intro c hc
    have hdigit := isDigit_of_mem_toDigits hc
    rw [hvalue c hc]
    simp [Char.isDigit, UInt32.le_iff_toNat_le] at hdigit ⊢
    omega
  have hfold : (Nat.toDigits 10 n).foldl (fun n c => n * 10 + (digitValue c).getD 0) 0 = n := by
    refine (List.foldl_ext _ _ _ fun a c hc => ?_).trans (foldl_toDigits n)
    rw [hvalue c hc]
    rfl
  simp only [parseUint, splitBase_of_ne (head_toDigits hpos), hfilter, hall, hfold, if_pos hn]
  simp [Nat.toDigits_ne_nil]

/-- A number with a unit is no number. -/
theorem parseInt_eq_none (hdigit : c.isDigit = true) (hne : c ≠ '0') (hs : 'B' ∈ s) :
    parseInt (c :: s) = none := by
  have hunsigned : parseUint (c :: s) = none := by
    have hall : ((c :: s).filter (· ≠ '_')).all (fun c => (digitValue c).any (· < 10)) = false := by
      rw [List.all_eq_false]
      exact ⟨'B', by simp [hs], by decide⟩
    simp only [parseUint, splitBase_of_ne (s := c :: s) (by simpa using hne), hall]
    simp
  unfold parseInt
  split
  · next heq =>
    cases heq
    cases hdigit
  · next heq =>
    cases heq
    cases hdigit
  · rw [hunsigned]
    rfl

/-! Sizes are read back -/

theorem trimSpace_eq_self (h : ∀ c ∈ s, isSpace c = false) : trimSpace s = s := by
  have hdrop : s.dropWhile isSpace = s := List.dropWhile_eq_self_iff.mpr fun hl => by simp [h _ (List.getElem_mem hl)]
  rw [trimSpace, hdrop]
  exact List.rdropWhile_eq_self_iff.mpr fun hl => by simp [h _ (List.getLast_mem hl)]

theorem parse_toDigits (hall : name.all (fun c => !isSpace c && !c.isDigit) = true)
    (hunit : units.lookup (name.map toUpper) = some u) (hu : 0 < u) (h : n * u < 2 ^ 63) :
    parse (Nat.toDigits 10 n ++ name) = .ok (n * u) := by
  have hname : ∀ c ∈ name, isSpace c = false ∧ c.isDigit = false := by simpa using hall
  have hdigits : ∀ c ∈ Nat.toDigits 10 n, c.isDigit = true := fun c => isDigit_of_mem_toDigits
  have htrim : trimSpace (Nat.toDigits 10 n ++ name) = Nat.toDigits 10 n ++ name :=
    trimSpace_eq_self fun c hc => (List.mem_append.mp hc).elim
      (fun hc => not_isSpace_of_isDigit (hdigits c hc)) fun hc => (hname c hc).1
  have hnone : name.takeWhile Char.isDigit = [] := by
    cases name with
    | nil => rfl
    | cons c name => simp [(hname c List.mem_cons_self).2]
  have htake : (Nat.toDigits 10 n ++ name).takeWhile Char.isDigit = Nat.toDigits 10 n := by
    rw [List.takeWhile_append_of_pos hdigits, hnone, List.append_nil]
  have hdrop : (Nat.toDigits 10 n ++ name).dropWhile Char.isDigit = name := by
    have hsame := List.takeWhile_append_dropWhile (p := Char.isDigit) (l := Nat.toDigits 10 n ++ name)
    rw [htake] at hsame
    exact List.append_cancel_left hsame
  have hle : (n : Int) ≤ n * u := le_mul_of_one_le_right (by omega) hu
  have hguard : ¬ (n : Int) > maxInt64 / u := by
    rw [gt_iff_lt, not_lt, Int.le_ediv_iff_mul_le hu]
    exact Int.le_sub_one_of_lt h
  have hwrap : (n * u).bmod (2 ^ 64) = n * u := Int.bmod_eq_of_le (by omega) (by omega)
  simp only [parse, htrim, htake, hdrop, trimSpace_eq_self fun c hc => (hname c hc).1, hunit,
    atoi_toDigits (n := n) (by omega), if_neg Nat.toDigits_ne_nil, if_neg hguard, hwrap]

/-- The units that `format` writes. -/
def suffixes : List (Str × Int) := [("B", 1), ("KB", KB), ("MB", MB), ("GB", GB)]

theorem suffixes_spec : ∀ p ∈ suffixes, p.1.all (fun c => !isSpace c && !c.isDigit) = true ∧
    units.lookup (p.1.map toUpper) = some p.2 ∧ 0 < p.2 ∧ 'B' ∈ p.1 := by
  decide +kernel

theorem format_natCast (n : Nat) : ∃ (m : Nat) (p : Str × Int), p ∈ suffixes ∧
    format n = Nat.toDigits 10 m ++ p.1 ∧ (n : Int) = m * p.2 := by
  have hwhole : ∀ u : Int, 0 < u → (n : Int) % u = 0 →
      ∃ m : Nat, formatInt (n / u) = Nat.toDigits 10 m ∧ (n : Int) = m * u := fun u hu hmod => by
    obtain ⟨m, hm⟩ := Int.eq_ofNat_of_zero_le (Int.ediv_nonneg (Int.natCast_nonneg n) hu.le)
    refine ⟨m, by rw [hm]; rfl, ?_⟩
    rw [← hm, Int.ediv_mul_cancel (Int.dvd_of_emod_eq_zero hmod)]
  unfold format
  rw [if_neg (by omega)]
  split_ifs with hzero hgb hmb hkb
  · exact ⟨0, ("B", 1), by decide, rfl, by omega⟩
  · obtain ⟨m, htext, hm⟩ := hwhole GB (by decide) hgb
    exact ⟨m, ("GB", GB), by decide, by rw [htext], hm⟩
  · obtain ⟨m, htext, hm⟩ := hwhole MB (by decide) hmb
    exact ⟨m, ("MB", MB), by decide, by rw [htext], hm⟩
  · obtain ⟨m, htext, hm⟩ := hwhole KB (by decide) hkb
    exact ⟨m, ("KB", KB), by decide, by rw [htext], hm⟩
  · exact ⟨n, ("B", 1), by decide, rfl, by omega⟩

theorem parse_format (h : n < 2 ^ 63) : parse (format n) = .ok n := by
  obtain ⟨m, p, hp, htext, hm⟩ := format_natCast n
  obtain ⟨hname, hunit, hpos, -⟩ := suffixes_spec p hp
  rw [htext, hm]
  exact parse_toDigits hname hunit hpos (by omega)

theorem parseInt_format (n : Nat) : parseInt (format n) = none := by
  obtain ⟨m, p, hp, htext, hm⟩ := format_natCast n
  obtain ⟨-, -, -, hb⟩ := suffixes_spec p hp
  obtain rfl | hpos := Nat.eq_zero_or_pos m
  · rw [hm, Nat.cast_zero, zero_mul]
    decide
  · have hhead := head_toDigits hpos
    have hdigit := fun c => isDigit_of_mem_toDigits (n := m) (c := c)
    rw [htext]
    cases hdigits : Nat.toDigits 10 m with
    | nil => exact absurd hdigits Nat.toDigits_ne_nil
    | cons c ds =>
      rw [hdigits] at hhead hdigit
      refine parseInt_eq_none (hdigit c List.mem_cons_self) (by simpa using hhead) ?_
      exact List.mem_append_right ds hb

theorem set_string {bits : Nat} (hbits : bits ≤ 64) (v : BitVec bits) :
    Value.set ⟨some v⟩ (Value.string ⟨some v⟩) = (none, ⟨some v⟩) := by
  have hlow := v.le_toInt
  have hhigh := v.toInt_lt
  have hrange : (2 : Int) ^ (bits - 1) ≤ 2 ^ 63 := pow_le_pow_right₀ (by decide) (by omega)
  have hsize : (parseInt (format v.toInt)).elim (parse (format v.toInt)) .ok = .ok v.toInt := by
    cases hv : v.toInt with
    | ofNat n =>
      rw [hv, Int.ofNat_eq_natCast] at hhigh
      rw [Int.ofNat_eq_natCast, parseInt_format n, Option.elim_none, parse_format (by omega)]
    | negSucc n =>
      have hn : n + 1 ≤ 2 ^ 63 := by omega
      have hunsigned := parseUint_toDigits (n := n + 1) (by omega) (by omega)
      have htext : format (.negSucc n) = '-' :: Nat.toDigits 10 (n + 1) := if_pos (by omega)
      rw [htext, parseInt, hunsigned, Option.filter_some, if_pos (by simpa using hn)]
      rfl
  simp only [Value.set, Value.string, Option.elim_some, hsize, BitVec.ofInt_toInt]
  simp

/-! What is read -/

/-- The names of the unit of a power of 1024, in upper case. -/
def unitNames : Nat → List Str
  | 0 => ["", "B"]
  | 1 => ["KB", "KIB"]
  | 2 => ["MB", "MIB"]
  | 3 => ["GB", "GIB"]
  | _ => []

/-- The text is this decimal number with the unit of this power of 1024, and spaces around them. -/
def IsSize (s : Str) (number k : Nat) : Prop :=
  ∃ before digits between unit after : Str, s = before ++ digits ++ between ++ unit ++ after ∧
    (∀ c ∈ before ++ between ++ after, isSpace c = true) ∧ digits ≠ [] ∧ (∀ c ∈ digits, c.isDigit = true) ∧
    number = Nat.ofDigitChars 10 digits 0 ∧ unit.map toUpper ∈ unitNames k

theorem trimSpace_spec (s : Str) : ∃ before after : Str, s = before ++ trimSpace s ++ after ∧
      ∀ c ∈ before ++ after, isSpace c = true := by
  refine ⟨s.takeWhile isSpace, (s.dropWhile isSpace).rtakeWhile isSpace, ?_, fun c hc => ?_⟩
  · rw [trimSpace, List.append_assoc, List.rdropWhile_append_rtakeWhile, List.takeWhile_append_dropWhile]
  · exact (List.mem_append.mp hc).elim List.mem_takeWhile_imp List.mem_rtakeWhile_imp

theorem units_power (h : units.lookup name = some u) : ∃ k : Nat, u = 1024 ^ k ∧ name ∈ unitNames k := by
  obtain ⟨l₁, l₂, heq, -⟩ := List.lookup_eq_some_iff.mp h
  have hall : ∀ p ∈ units, ∃ k ∈ [0, 1, 2, 3], p.2 = 1024 ^ k ∧ p.1 ∈ unitNames k := by decide +kernel
  obtain ⟨k, -, hk⟩ := hall (name, u) (by rw [heq]; simp)
  exact ⟨k, hk⟩

theorem parse_ok (h : parse s = .ok r) : ∃ number k, IsSize s number k ∧ r = number * 1024 ^ k ∧ r < 2 ^ 63 := by
  simp only [parse] at h
  obtain ⟨before, after, heq, hspaces⟩ := trimSpace_spec s
  generalize trimSpace s = trimmed at h heq
  have hdigits : ∀ c ∈ trimmed.takeWhile Char.isDigit, c.isDigit = true := fun c => List.mem_takeWhile_imp
  have hsplit := List.takeWhile_append_dropWhile (p := Char.isDigit) (l := trimmed)
  generalize trimmed.takeWhile Char.isDigit = digits, trimmed.dropWhile Char.isDigit = rest at h hdigits hsplit
  obtain ⟨between, after', heq', hspaces'⟩ := trimSpace_spec rest
  generalize trimSpace rest = unitName at h heq'
  split at h
  · cases h
  split at h
  · cases h
  split at h
  · cases h
  split at h
  · cases h
  next hne _ number hnumber _ unit hunit hguard =>
  cases h
  rw [atoi_digits hdigits] at hnumber
  cases (Option.ite_none_right_eq_some.mp hnumber).2
  obtain ⟨k, rfl, hname⟩ := units_power hunit
  have hnonneg : (0 : Int) ≤ Nat.ofDigitChars 10 digits 0 * 1024 ^ k := by positivity
  rw [gt_iff_lt, not_lt, Int.le_ediv_iff_mul_le (by positivity), maxInt64] at hguard
  rw [Int.bmod_eq_of_le (by omega) (by omega)]
  refine ⟨_, k, ⟨before, digits, between, unitName, after' ++ after, ?_, ?_, hne, hdigits, rfl, hname⟩, rfl,
    by omega⟩
  · rw [heq, ← hsplit, heq']
    simp only [List.append_assoc]
  · grind

/-- **Sizes are exact**: what `Format` writes is read back, by `Parse` and by a flag, and what
    `Parse` reads is the product of the number and the unit, without wrap-around. -/
theorem data_size_exact :
    (∀ n : Int, 0 ≤ n → n < 2 ^ 63 → parse (format n) = .ok n) ∧
      (∀ bits ≤ 64, ∀ v : BitVec bits, Value.set ⟨some v⟩ (Value.string ⟨some v⟩) = (none, ⟨some v⟩)) ∧
      ∀ s r, parse s = .ok r → ∃ number k, IsSize s number k ∧ r = number * 1024 ^ k ∧ r < 2 ^ 63 := by
  refine ⟨fun n hpos hn => ?_, fun bits => set_string, fun s r => parse_ok⟩
  obtain ⟨n, rfl⟩ := Int.eq_ofNat_of_zero_le hpos
  exact parse_format (by omega)

end Porch.Util.DataSize
