import Porch.Go.Strings

/- Strings in JSON text, as package `encoding/json` writes them (HTML characters and the
   two line separators are written as escapes too), and how such text is read back.

     json.Marshal of a map[string]string with one entry  marshalEntry -/
namespace Go.Json

def hexDigit (n : Nat) : Char := "0123456789abcdef".toList.getD n '0'

def hexValue (c : Char) : Option Nat := "0123456789abcdef".toList.idxOf? c

def encodeChar (c : Char) : Str :=
  if c = '"' ∨ c = '\\' then ['\\', c]
  else if c = '\x08' then ['\\', 'b']
  else if c = '\x0c' then ['\\', 'f']
  else if c = '\n' then ['\\', 'n']
  else if c = '\r' then ['\\', 'r']
  else if c = '\t' then ['\\', 't']
  else if c.toNat < 32 ∨ c = '<' ∨ c = '>' ∨ c = '&' then
    ['\\', 'u', '0', '0', hexDigit (c.toNat / 16), hexDigit (c.toNat % 16)]
  else if c = '\u2028' then ['\\', 'u', '2', '0', '2', '8']
  else if c = '\u2029' then ['\\', 'u', '2', '0', '2', '9']
  else [c]

def encodeString (s : Str) : Str := '"' :: s.flatMap encodeChar ++ ['"']

/-- `json.Marshal(map[string]string{key: value})`. -/
def marshalEntry (key value : Str) : Str :=
  '\x7b' :: encodeString key ++ ':' :: encodeString value ++ ['\x7d']

/-- The character that follows a backslash, other than `u`. -/
def unescape : Char → Option Char
  | 'b' => some '\x08'
  | 'f' => some '\x0c'
  | 'n' => some '\n'
  | 'r' => some '\r'
  | 't' => some '\t'
  | '"' => some '"'
  | '\\' => some '\\'
  | '/' => some '/'
  | _ => none

def hex4 (a b c d : Char) : Option Nat := do
  return (((← hexValue a) * 16 + (← hexValue b)) * 16 + (← hexValue c)) * 16 + (← hexValue d)

/-- Reads a string after its opening quote: its value and what follows. -/
def readString : Str → Option (Str × Str)
  | '"' :: s => some ([], s)
  | '\\' :: 'u' :: a :: b :: c :: d :: s => do
    let n ← hex4 a b c d
    let r ← readString s
    return (Char.ofNat n :: r.1, r.2)
  | '\\' :: e :: s => do
    let c ← unescape e
    let r ← readString s
    return (c :: r.1, r.2)
  | c :: s => (readString s).map fun r => (c :: r.1, r.2)
  | [] => none

/-- Reads an object with one member whose value is a string. -/
def readEntry (s : Str) : Option (Str × Str) :=
  match s with
  | '\x7b' :: '"' :: s =>
    match readString s with
    | some (key, ':' :: '"' :: s) =>
      match readString s with
      | some (value, ['\x7d']) => some (key, value)
      | _ => none
    | _ => none
  | _ => none

theorem hexValue_hexDigit : ∀ n < 16, hexValue (hexDigit n) = some n := by decide +kernel

theorem hex4_byte {n : Nat} (h : n < 256) :
    hex4 '0' '0' (hexDigit (n / 16)) (hexDigit (n % 16)) = some n := by
  have hzero : hexValue '0' = some 0 := by decide +kernel
  have hhigh := hexValue_hexDigit (n / 16) (by omega)
  have hlow := hexValue_hexDigit (n % 16) (by omega)
  simp only [hex4, hzero, hhigh, hlow, Option.pure_def, Option.bind_eq_bind, Option.bind_some]
  congr 1
  omega

theorem readString_plain {c : Char} {s : Str} (hquote : c ≠ '"') (hslash : c ≠ '\\') :
    readString (c :: s) = (readString s).map fun r => (c :: r.1, r.2) := by
  rw [readString]
  · exact hquote
  · exact fun _ _ _ _ _ h => absurd h hslash
  · exact fun _ _ h => absurd h hslash

theorem readString_escape {e c : Char} {s : Str} (hu : e ≠ 'u') (h : unescape e = some c) :
    readString ('\\' :: e :: s) = (readString s).map fun r => (c :: r.1, r.2) := by
  rw [readString]
  · rw [h]
    cases readString s <;> rfl
  · exact fun _ _ _ _ _ he => absurd he hu

theorem readString_unicode {a b c d : Char} {n : Nat} {s : Str} (h : hex4 a b c d = some n) :
    readString ('\\' :: 'u' :: a :: b :: c :: d :: s) =
      (readString s).map fun r => (Char.ofNat n :: r.1, r.2) := by
  rw [readString, h]
  cases readString s <;> rfl

theorem readString_encodeChar (c : Char) (s : Str) :
    readString (encodeChar c ++ s) = (readString s).map fun r => (c :: r.1, r.2) := by
  unfold encodeChar
  split_ifs with h hb hf hn hr ht hbyte h8 h9
  · rcases h with rfl | rfl <;> exact readString_escape (by decide) rfl
  · exact hb ▸ readString_escape (by decide) rfl
  · exact hf ▸ readString_escape (by decide) rfl
  · exact hn ▸ readString_escape (by decide) rfl
  · exact hr ▸ readString_escape (by decide) rfl
  · exact ht ▸ readString_escape (by decide) rfl
  · have hlt : c.toNat < 256 := by
      rcases hbyte with h | rfl | rfl | rfl
      · omega
      all_goals decide
    have hread := readString_unicode (s := s) (hex4_byte hlt)
    rwa [Char.ofNat_toNat] at hread
  · rw [h8]
    exact readString_unicode (n := 0x2028) (by decide +kernel)
  · rw [h9]
    exact readString_unicode (n := 0x2029) (by decide +kernel)
  · exact readString_plain (fun e => h (.inl e)) fun e => h (.inr e)

theorem readString_encode (s r : Str) :
    readString (s.flatMap encodeChar ++ '"' :: r) = some (s, r) := by
  induction s with
  | nil => rfl
  | cons c s ih =>
    rw [List.flatMap_cons, List.append_assoc, readString_encodeChar, ih]
    rfl

/-- **A key and a value are read back from their object.** -/
theorem readEntry_marshalEntry (key value : Str) :
    readEntry (marshalEntry key value) = some (key, value) := by
  have hkey := readString_encode key (':' :: encodeString value ++ ['\x7d'])
  have hvalue := readString_encode value ['\x7d']
  simp only [marshalEntry, encodeString, readEntry, List.cons_append, List.append_assoc,
    List.nil_append] at hkey ⊢
  rw [hkey]
  simp only [hvalue]

end Go.Json
