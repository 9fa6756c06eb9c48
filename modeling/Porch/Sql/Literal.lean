import Mathlib

/- String constants in SQL text, as PostgreSQL reads them with standard-conforming
   strings: a constant runs from a single quote to the next one that is not doubled, a
   doubled quote inside stands for one quote, and a backslash stands for itself.

   `lex` reads a text into its constants and, character by character, all the rest.
   Comments, quoted names and prefixed constants are not told apart, so a reading says
   what the server makes of a text up to the first constant that is not the intended one.

   A text is assembled from pieces: code, values put between quotes as they are
   (`bare`), and values whose quotes are doubled first (`escaped`). It is read as
   intended exactly when no bare value holds a quote (`lex_render_iff`). -/
namespace Sql

open List

/-- A string constant with its value, or one character of anything else. -/
inductive Token where
  | str (value : List Char)
  | other (c : Char)
deriving DecidableEq, Repr

/-- Reads on, inside a constant whose value so far is given, or outside of one. -/
def lexFrom : Option (List Char) → List Char → Option (List Token)
  | none, [] => some []
  | none, '\'' :: s => lexFrom (some []) s
  | none, c :: s => (lexFrom none s).map (.other c :: ·)
  | some _, [] => none
  | some v, '\'' :: '\'' :: s => lexFrom (some (v ++ ['\''])) s
  | some v, '\'' :: s => (lexFrom none s).map (.str v :: ·)
  | some v, c :: s => lexFrom (some (v ++ [c])) s

/-- The tokens of a text, none if its last constant does not end. -/
def lex (s : List Char) : Option (List Token) := lexFrom none s

def escape : List Char → List Char
  | [] => []
  | c :: s => if c = '\'' then '\'' :: '\'' :: escape s else c :: escape s

section Reading

variable {v w s r : List Char}

theorem lexFrom_code_cons {c : Char} (hc : c ≠ '\'') :
    lexFrom none (c :: s) = (lexFrom none s).map (.other c :: ·) := by
  rw [lexFrom]
  exact fun h => hc (by simpa using h)

theorem lexFrom_value_cons {c : Char} (hc : c ≠ '\'') :
    lexFrom (some v) (c :: s) = lexFrom (some (v ++ [c])) s := by
  rw [lexFrom]
  · exact fun _ h => absurd h hc
  · exact fun h => absurd h hc

theorem lexFrom_value_end (hs : s.head? ≠ some '\'') :
    lexFrom (some v) ('\'' :: s) = (lexFrom none s).map (.str v :: ·) := by
  rw [lexFrom]
  rintro s' rfl
  exact hs rfl

theorem lex_code {p : List Char} (hp : '\'' ∉ p) :
    lex (p ++ s) = (lex s).map (p.map .other ++ ·) := by
  induction p with
  | nil => cases h : lex s <;> simp [h]
  | cons c p ih =>
    have hc : c ≠ '\'' := fun h => hp (by simp [h])
    have hrest := ih fun h => hp (mem_cons_of_mem _ h)
    unfold lex at hrest ⊢
    rw [cons_append, lexFrom_code_cons hc, hrest, Option.map_map]
    rfl

theorem lexFrom_escape (hs : s.head? ≠ some '\'') :
    lexFrom (some v) (escape w ++ '\'' :: s) = (lex s).map (.str (v ++ w) :: ·) := by
  induction w generalizing v with
  | nil => simpa [escape, lex] using lexFrom_value_end hs
  | cons c w ih =>
    by_cases hc : c = '\''
    · rw [hc, escape, if_pos rfl, cons_append, cons_append, lexFrom, ih]
      simp
    · rw [escape, if_neg hc, cons_append, lexFrom_value_cons hc, ih]
      simp

theorem escape_of_not_mem (h : '\'' ∉ w) : escape w = w := by
  induction w with
  | nil => rfl
  | cons c w ih =>
    have hc : c ≠ '\'' := fun e => h (by simp [e])
    rw [escape, if_neg hc, ih fun e => h (mem_cons_of_mem _ e)]

theorem lexFrom_value_inv {t x : List Char} {ts : List Token}
    (h : lexFrom (some v) t = some (.str x :: ts)) :
    ∃ y r, x = v ++ y ∧ t = escape y ++ '\'' :: r := by
  generalize hm : some v = m at h
  fun_induction lexFrom m t generalizing v with
  | case1 | case2 | case3 => cases hm
  | case4 => cases h
  | case5 v' t ih =>
    cases hm
    obtain ⟨y, r, rfl, rfl⟩ := ih rfl h
    exact ⟨'\'' :: y, r, by simp, by simp [escape]⟩
  | case6 v' t hend ih =>
    cases hm
    obtain ⟨ts', -, hts⟩ := Option.map_eq_some_iff.mp h
    have hx : v' = x := Token.str.inj (cons.inj hts).1
    exact ⟨[], t, by simp [hx], rfl⟩
  | case7 v' c t hdouble hsingle ih =>
    cases hm
    obtain ⟨y, r, rfl, rfl⟩ := ih rfl h
    have hc : c ≠ '\'' := fun e => hsingle e
    exact ⟨c :: y, r, by simp, by simp [escape, hc]⟩

theorem quotes_not_even {n : Nat} (hn : 0 < n) (hs : s.head? ≠ some '\'') :
    List.replicate n '\'' ++ escape w ++ '\'' :: r ≠ w ++ '\'' :: s := by
  induction w generalizing n with
  | nil =>
    obtain ⟨m, rfl⟩ := Nat.exists_eq_add_of_lt hn
    intro h
    have hs' : replicate m '\'' ++ '\'' :: r = s := by
      simpa [escape, replicate_succ, Nat.add_comm] using h
    cases m <;> exact hs (by simp [← hs', replicate_succ])
  | cons c w ih =>
    obtain ⟨m, rfl⟩ := Nat.exists_eq_add_of_lt hn
    intro h
    rw [Nat.zero_add, replicate_succ, cons_append, cons_append, cons_append] at h
    obtain ⟨rfl, h⟩ := cons.inj h
    apply ih (n := m + 2) (Nat.succ_pos _)
    rw [← h, escape, if_pos rfl, replicate_add]
    simp

theorem not_mem_of_escape_eq (hs : s.head? ≠ some '\'')
    (h : escape w ++ '\'' :: r = w ++ '\'' :: s) : '\'' ∉ w := by
  induction w with
  | nil => exact not_mem_nil
  | cons c w ih =>
    by_cases hc : c = '\''
    · rw [hc, escape, if_pos rfl, cons_append, cons_append, cons_append] at h
      exact absurd (cons.inj h).2 (quotes_not_even Nat.one_pos hs)
    · rw [escape, if_neg hc, cons_append, cons_append] at h
      simpa [Ne.symm hc] using ih (cons.inj h).2

end Reading

/-! Text assembled from pieces -/

/-- A piece of a text: code, a value put between quotes as it is, or one whose quotes
    are doubled. -/
inductive Piece where
  | code (s : List Char)
  | bare (v : List Char)
  | escaped (v : List Char)
deriving DecidableEq, Repr

namespace Piece

def render : Piece → List Char
  | code s => s
  | bare v => '\'' :: v ++ ['\'']
  | escaped v => '\'' :: escape v ++ ['\'']

/-- What the piece is meant to be read as. -/
def tokens : Piece → List Token
  | code s => s.map .other
  | bare v | escaped v => [.str v]

end Piece

/-- Code holds no quote, and code follows every value. -/
def Closed : List Piece → Prop
  | [] => True
  | .code s :: ps => '\'' ∉ s ∧ Closed ps
  | .bare _ :: ps | .escaped _ :: ps =>
    (∃ s ps', s ≠ [] ∧ ps = .code s :: ps') ∧ Closed ps

section Pieces

variable {ps qs : List Piece}

theorem Closed.append (hp : Closed ps) (hq : Closed qs) : Closed (ps ++ qs) := by
  induction ps with
  | nil => exact hq
  | cons p ps ih =>
    cases p with
    | code s => exact ⟨hp.1, ih hp.2⟩
    | bare v | escaped v =>
      obtain ⟨⟨s, ps', hs, rfl⟩, hp⟩ := hp
      exact ⟨⟨s, ps' ++ qs, hs, rfl⟩, ih hp⟩

theorem Closed.intercalate {sep : List Char} (hsep : '\'' ∉ sep) {l : List (List Piece)}
    (h : ∀ ps ∈ l, Closed ps) : Closed ([.code sep].intercalate l) := by
  induction l with
  | nil => trivial
  | cons ps l ih =>
    have hps := h ps mem_cons_self
    have hl := ih fun qs hq => h qs (mem_cons_of_mem _ hq)
    cases l with
    | nil => simpa using hps
    | cons qs l =>
      rw [intercalate_cons_cons, append_assoc]
      exact hps.append ⟨hsep, hl⟩

theorem render_intercalate (sep : List Char) (l : List (List Piece)) :
    ([Piece.code sep].intercalate l).flatMap Piece.render =
      sep.intercalate (l.map fun ps => ps.flatMap Piece.render) := by
  induction l with
  | nil => rfl
  | cons ps l ih =>
    cases l with
    | nil => simp
    | cons qs l =>
      rw [intercalate_cons_cons, flatMap_append, flatMap_append, ih]
      simp [Piece.render, intercalate_cons_cons]

/-- Values with `sep` between them and `close` at the end. -/
def bareList (sep close : List Char) : List (List Char) → List Piece
  | [] => [.code close]
  | [v] => [.bare v, .code close]
  | v :: w :: vs => .bare v :: .code sep :: bareList sep close (w :: vs)

theorem closed_bareList {sep close : List Char} (hsep : sep ≠ [] ∧ '\'' ∉ sep)
    (hclose : close ≠ [] ∧ '\'' ∉ close) (vs : List (List Char)) :
    Closed (bareList sep close vs) := by
  induction vs with
  | nil => exact ⟨hclose.2, trivial⟩
  | cons v vs ih =>
    cases vs with
    | nil => exact ⟨⟨close, [], hclose.1, rfl⟩, hclose.2, trivial⟩
    | cons w vs => exact ⟨⟨sep, _, hsep.1, rfl⟩, hsep.2, ih⟩

theorem render_bareList (sep close : List Char) (vs : List (List Char)) :
    (bareList sep close vs).flatMap Piece.render =
      sep.intercalate (vs.map fun v => (Piece.bare v).render) ++ close := by
  induction vs with
  | nil => simp [bareList, Piece.render]
  | cons v vs ih =>
    cases vs with
    | nil => simp [bareList, Piece.render]
    | cons w vs =>
      rw [bareList, flatMap_cons, flatMap_cons, ih]
      simp [Piece.render, intercalate_cons_cons]

/-- No value that is put between quotes as it is holds a quote. -/
def QuoteFree (ps : List Piece) : Prop := ∀ v, Piece.bare v ∈ ps → '\'' ∉ v

@[simp] theorem quoteFree_nil : QuoteFree [] := fun _ h => by cases h

@[simp] theorem quoteFree_code (s : List Char) : QuoteFree (.code s :: ps) ↔ QuoteFree ps := by
  simp [QuoteFree]

@[simp] theorem quoteFree_escaped (v : List Char) : QuoteFree (.escaped v :: ps) ↔ QuoteFree ps := by
  simp [QuoteFree]

@[simp] theorem quoteFree_bare (v : List Char) :
    QuoteFree (.bare v :: ps) ↔ '\'' ∉ v ∧ QuoteFree ps := by
  simp [QuoteFree]

@[simp] theorem quoteFree_append : QuoteFree (ps ++ qs) ↔ QuoteFree ps ∧ QuoteFree qs := by
  simp [QuoteFree, or_imp, forall_and]

@[simp] theorem quoteFree_bareList (sep close : List Char) (vs : List (List Char)) :
    QuoteFree (bareList sep close vs) ↔ ∀ v ∈ vs, '\'' ∉ v := by
  induction vs with
  | nil => simp [bareList]
  | cons v vs ih =>
    cases vs with
    | nil => simp [bareList]
    | cons w vs =>
      rw [bareList, quoteFree_bare, quoteFree_code, ih]
      simp

@[simp] theorem quoteFree_intercalate (sep : List Char) (l : List (List Piece)) :
    QuoteFree ([.code sep].intercalate l) ↔ ∀ ps ∈ l, QuoteFree ps := by
  induction l with
  | nil => simp
  | cons ps l ih =>
    cases l with
    | nil => simp
    | cons qs l =>
      rw [intercalate_cons_cons, quoteFree_append, quoteFree_append, ih]
      simp

theorem head_after_value (h : ∃ s ps', s ≠ [] ∧ ps = .code s :: ps') (hp : Closed ps) :
    (ps.flatMap Piece.render).head? ≠ some '\'' := by
  obtain ⟨s, ps', hs, rfl⟩ := h
  obtain ⟨c, s, rfl⟩ := exists_cons_of_ne_nil hs
  intro e
  have hc : c = '\'' := by simpa [Piece.render] using e
  exact hp.1 (by simp [hc])

theorem lex_escaped {v s : List Char} (hs : s.head? ≠ some '\'') :
    lex ((Piece.escaped v).render ++ s) = (lex s).map (.str v :: ·) := by
  have h := lexFrom_escape (v := []) (w := v) hs
  simpa [Piece.render, lex, lexFrom] using h

/-- **A text is read as intended exactly when no value that is put between quotes as it
    is holds a quote.** -/
theorem lex_render_iff (h : Closed ps) :
    lex (ps.flatMap Piece.render) = some (ps.flatMap Piece.tokens) ↔ QuoteFree ps := by
  induction ps with
  | nil => simp [lex, lexFrom]
  | cons p ps ih =>
    cases p with
    | code s =>
      rw [flatMap_cons, flatMap_cons, Piece.render, Piece.tokens, lex_code h.1]
      simp [← ih h.2]
    | escaped v =>
      rw [flatMap_cons, flatMap_cons, lex_escaped (head_after_value h.1 h.2)]
      simp [Piece.tokens, ← ih h.2]
    | bare v =>
      have hhead := head_after_value h.1 h.2
      rw [flatMap_cons, flatMap_cons]
      by_cases hv : '\'' ∈ v
      · -- the constant that is read is another one
        refine iff_of_false (fun e => ?_) fun e => e v mem_cons_self hv
        have e' : lexFrom (some []) (v ++ '\'' :: ps.flatMap Piece.render) =
            some (.str v :: ps.flatMap Piece.tokens) := by
          simpa [Piece.render, Piece.tokens, lex, lexFrom] using e
        obtain ⟨y, r, rfl, ht⟩ := lexFrom_value_inv e'
        exact not_mem_of_escape_eq hhead ht.symm hv
      · have hsame : (Piece.bare v).render = (Piece.escaped v).render := by
          simp [Piece.render, escape_of_not_mem hv]
        rw [hsame, lex_escaped hhead]
        simp [Piece.tokens, ← ih h.2, hv]

end Pieces

end Sql
