import Porch.Git.Tree
import Porch.Go.Error

/- A commit that writes to a package only leaves every file outside the package as it was
   (`WritesOnly.frame`), and a package tree that is put in its place is there
   (`package_placed`). Storing a tree goes by names: what is stored under a name depends on
   the entries of that name alone (`stored_named`). -/
namespace Porch.Git

open Go Function List

/-! Entries by name -/

section Entries

variable {α : Type} {name n : Str} {e : TreeEntry} {entries : List (Str × TreeEntry)} {t : Tree}

variable {x : Str × α} {xs : List (Str × α)}

theorem lookup_cons_of_ne (h : n ≠ x.1) : (x :: xs).lookup n = xs.lookup n := by
  obtain ⟨m, a⟩ := x
  rw [lookup, beq_eq_false_iff_ne.mpr h]

theorem lookup_cons_of_eq (h : x.1 = n) : (x :: xs).lookup n = some x.2 := by
  obtain ⟨m, a⟩ := x
  subst h
  exact lookup_cons_self

/-- The entries of a name. -/
def named (n : Str) (xs : List (Str × α)) : List (Str × α) := xs.filter (·.1 = n)

theorem named_cons : named n (x :: xs) = if x.1 = n then x :: named n xs else named n xs := by
  simp [named, filter_cons]

theorem lookup_eq_named : xs.lookup n = (named n xs).head?.map Prod.snd := by
  induction xs with
  | nil => rfl
  | cons x xs ih =>
    by_cases hx : x.1 = n
    · simp [named_cons, lookup_cons_of_eq hx, hx]
    · simp [named_cons, lookup_cons_of_ne (Ne.symm hx), hx, ih]

theorem named_tail (h : (xs.map Prod.fst).Nodup) : (named n xs).tail = [] := by
  induction xs with
  | nil => rfl
  | cons x xs ih =>
    obtain ⟨hx, hxs⟩ := nodup_cons.mp h
    rw [named_cons]
    split
    · next heq =>
      refine filter_eq_nil_iff.mpr fun y hy hyn => hx ?_
      rw [heq, ← of_decide_eq_true hyn]
      exact mem_map_of_mem hy
    · exact ih hxs

theorem named_loaded : named n (loaded t) = loaded (named n t) := by
  simp [named, loaded, filter_map, comp_def]

theorem named_setOrAdd_self :
    named name (setOrAddTreeEntry name e entries) = (name, e) :: (named name entries).tail := by
  induction entries with
  | nil => simp [setOrAddTreeEntry, named]
  | cons x xs ih =>
    unfold setOrAddTreeEntry
    split
    · next hx => simp [named_cons, hx]
    · next hx => simp [named_cons, hx, ih]

theorem named_setOrAdd_ne (h : n ≠ name) :
    named n (setOrAddTreeEntry name e entries) = named n entries := by
  induction entries with
  | nil => simp [setOrAddTreeEntry, named, h.symm]
  | cons x xs ih =>
    unfold setOrAddTreeEntry
    split
    · next hx => simp [named_cons, hx, h.symm]
    · simp [named_cons, ih]

theorem named_remove (n : Str) : named n (removeTreeEntry name entries) =
    if n = name then (named name entries).tail else named n entries := by
  induction entries with
  | nil => simp [removeTreeEntry, named]
  | cons x xs ih =>
    unfold removeTreeEntry
    split
    · next hx => grind [named_cons]
    · next hx => grind [named_cons]

end Entries

/-! Storing -/

section Store

variable {trees : Trees} {fuel : Nat} {dir : List Str} {entries : List (Str × TreeEntry)}
  {t es : Tree} {n : Str}

/-- One entry of the loop of `storeTrees`. -/
def storeEntry (trees : Trees) (fuel : Nat) (dir : List Str) (x : Str × TreeEntry) (rest : Tree) :
    Except GitError Tree :=
  match x.2 with
  | .stored n => .ok ((x.1, n) :: rest)
  | .dirty => do
    let child ← storeTrees trees fuel (dir ++ [x.1])
    if child.isEmpty then .ok rest else .ok ((x.1, .dir child) :: rest)

theorem storeTrees_succ (h : trees dir = some entries) :
    storeTrees trees (fuel + 1) dir = entries.foldrM (storeEntry trees fuel dir) [] := by
  simp only [storeTrees, h]
  rfl

/-- What an entry is stored as depends on nothing after it. -/
theorem storeEntry_ok {x : Str × TreeEntry} {rest : Tree}
    (h : storeEntry trees fuel dir x rest = .ok t) : ∃ own : Tree, t = own ++ rest ∧
      (∀ y ∈ own, y.1 = x.1) ∧ ∀ rest, storeEntry trees fuel dir x rest = .ok (own ++ rest) := by
  obtain ⟨m, e⟩ := x
  cases e with
  | stored node =>
    cases h
    exact ⟨[(m, node)], rfl, by simp, fun _ => rfl⟩
  | dirty =>
    obtain ⟨child, hchild, h⟩ := bind_eq_ok.mp h
    cases child with
    | nil =>
      cases h
      exact ⟨[], rfl, by simp, fun _ => bind_eq_ok.mpr ⟨[], hchild, rfl⟩⟩
    | cons c cs =>
      cases h
      exact ⟨[(m, .dir (c :: cs))], rfl, by simp, fun _ => bind_eq_ok.mpr ⟨_, hchild, rfl⟩⟩

/-- **Storing goes by names.** -/
theorem stored_named (h : entries.foldrM (storeEntry trees fuel dir) [] = .ok t) :
    (named n entries).foldrM (storeEntry trees fuel dir) [] = .ok (named n t) := by
  induction entries generalizing t with
  | nil =>
    cases h
    rfl
  | cons x xs ih =>
    rw [foldrM_cons] at h
    obtain ⟨rest, hrest, h⟩ := bind_eq_ok.mp h
    obtain ⟨own, rfl, hown, hsto⟩ := storeEntry_ok h
    have happend : named n (own ++ rest) = named n own ++ named n rest := filter_append ..
    rw [named_cons, happend]
    split
    · next hx =>
      have hall : named n own = own := filter_eq_self.mpr fun y hy => by simp [hown y hy, hx]
      rw [hall, foldrM_cons, ih hrest]
      exact hsto _
    · next hx =>
      have hnone : named n own = [] := filter_eq_nil_iff.mpr fun y hy => by simp [hown y hy, hx]
      rw [hnone]
      exact ih hrest

theorem stored_loaded : (loaded t).foldrM (storeEntry trees fuel dir) [] = .ok t := by
  induction t with
  | nil => rfl
  | cons x xs ih =>
    have hloaded : loaded (x :: xs) = (x.1, .stored x.2) :: loaded xs := rfl
    rw [hloaded, foldrM_cons, ih]
    rfl

theorem storeTrees_loaded (h : trees dir = some (loaded t)) :
    storeTrees trees (fuel + 1) dir = .ok t := by
  rw [storeTrees_succ h, stored_loaded]

/-- `c` is the directory `n` of `t`, and empty without one. -/
def DirAt (t : Tree) (n : Str) (c : Tree) : Prop :=
  t.lookup n = none ∧ c = [] ∨ t.lookup n = some (.dir c)

theorem lookup_of_loaded (h : entries.foldrM (storeEntry trees fuel dir) [] = .ok t)
    (hn : named n entries = named n (loaded es)) : t.lookup n = es.lookup n := by
  have hnamed := stored_named (n := n) h
  rw [hn, named_loaded, stored_loaded] at hnamed
  rw [lookup_eq_named, lookup_eq_named, Except.ok.inj hnamed]

/-- A directory of a name that is written is found if it has entries, or is the only one. -/
theorem lookup_of_dirty {xs : List (Str × TreeEntry)}
    (h : entries.foldrM (storeEntry trees fuel dir) [] = .ok t)
    (hn : named n entries = (n, .dirty) :: xs) :
    ∃ child, storeTrees trees fuel (dir ++ [n]) = .ok child ∧
      (child ≠ [] → t.lookup n = some (.dir child)) ∧ (xs = [] → DirAt t n child) := by
  have hnamed := stored_named (n := n) h
  rw [hn, foldrM_cons] at hnamed
  obtain ⟨rest, hrest, hnamed⟩ := bind_eq_ok.mp hnamed
  obtain ⟨child, hchild, hnamed⟩ := bind_eq_ok.mp hnamed
  refine ⟨child, hchild, ?_⟩
  unfold DirAt
  rw [lookup_eq_named]
  cases child with
  | nil =>
    refine ⟨fun hne => absurd rfl hne, fun hxs => ?_⟩
    subst hxs
    cases hrest
    simp [← Except.ok.inj hnamed]
  | cons c cs => simp [← Except.ok.inj hnamed]

end Store

/-! Writing to one package -/

section Replace

/-- No two entries of the trees along a path have the same name. -/
def UniqueAlong : Tree → List Str → Prop
  | _, [] => True
  | t, n :: ns => (t.map Prod.fst).Nodup ∧
      match t.lookup n with
      | some (.dir entries) => UniqueAlong entries ns
      | _ => True

variable {trees trees' written : Trees} {dir d rest ns q : List Str} {fuel : Nat} {t es c : Tree}
  {lastPart n : Str}

theorem loadAncestors_cons {name : Str} (h : loadAncestors dir (name :: rest) trees = .ok trees') :
    ∃ current : Tree, (((trees dir).getD []).lookup name = none ∧ current = [] ∨
        ((trees dir).getD []).lookup name = some (.stored (.dir current))) ∧
      loadAncestors (dir ++ [name]) rest (update
        (update trees dir (some (setOrAddTreeEntry name .dirty ((trees dir).getD []))))
        (dir ++ [name]) (some (loaded current))) = .ok trees' := by
  unfold loadAncestors at h
  cases hcur : (((trees dir).getD []).lookup name) with
  | none =>
    simp only [hcur] at h
    exact ⟨[], .inl ⟨rfl, rfl⟩, h⟩
  | some e =>
    cases e with
    | dirty =>
      simp only [hcur] at h
      cases h
    | stored n =>
      cases n with
      | blob mode contents =>
        simp only [hcur] at h
        cases h
      | dir entries =>
        simp only [hcur] at h
        exact ⟨entries, .inr rfl, h⟩

theorem loadAncestors_frame (h : loadAncestors dir rest trees = .ok trees') (hd : ∀ p, p <+: rest → d ≠ dir ++ p) :
    trees' d = trees d := by
  induction rest generalizing dir trees with
  | nil =>
    cases h
    rfl
  | cons name rest ih =>
    obtain ⟨current, -, hrest⟩ := loadAncestors_cons h
    have hsub : ∀ p, p <+: rest → d ≠ dir ++ [name] ++ p := by
      intro p hp
      rw [append_assoc]
      exact hd (name :: p) (cons_prefix_cons.mpr ⟨rfl, hp⟩)
    have hdir := hd [] nil_prefix
    rw [append_nil] at hdir
    rw [ih hrest hsub, update_of_ne (by simpa using hsub [] nil_prefix), update_of_ne hdir]

theorem fileAt_congr (h : t.lookup n = es.lookup n) : fileAt t (n :: q) = fileAt es (n :: q) := by
  rw [fileAt, fileAt, h]

theorem DirAt.fileAt (h : DirAt t n c) : Git.fileAt t (n :: q) = Git.fileAt c q := by
  obtain ⟨hnone, rfl⟩ | hsome := h
  · rw [Git.fileAt, hnone]
    cases q with
    | nil | cons => rfl
  · rw [Git.fileAt, hsome]

theorem UniqueAlong.step (h : UniqueAlong t (n :: ns)) (hc : DirAt t n c) : UniqueAlong c ns := by
  obtain ⟨-, rfl⟩ | hsome := hc
  · cases ns with
    | nil => trivial
    | cons m ns => exact ⟨nodup_nil, trivial⟩
  · have hrest := h.2
    rw [hsome] at hrest
    exact hrest

/-- **Down the ancestors.** What is stored above a package is what is stored at its parent
    `top`, put in the place of what was there before, `base`. -/
theorem storeTrees_down (ns : List Str) (hdir : trees dir = some (loaded es))
    (hload : loadAncestors dir rest trees = .ok trees')
    (hwritten : ∀ d, ¬ dir ++ rest <+: d → written d = trees' d)
    (hstore : storeTrees written fuel dir = .ok t) :
    ∃ base top fuel', trees' (dir ++ rest) = some (loaded base) ∧
      storeTrees written fuel' (dir ++ rest) = .ok top ∧
      (top ≠ [] → t ≠ [] ∧ ∀ q, treeAt t (rest ++ q) = treeAt top q) ∧
      (UniqueAlong es (rest ++ ns) → UniqueAlong base ns ∧
        (∀ q, fileAt es (rest ++ q) = fileAt base q ∧ fileAt t (rest ++ q) = fileAt top q) ∧
        ∀ q, ¬ rest <+: q → fileAt t q = fileAt es q) := by
  induction rest generalizing dir trees es fuel t with
  | nil =>
    cases hload
    rw [append_nil]
    exact ⟨es, t, fuel, hdir, hstore, fun h => ⟨h, fun _ => rfl⟩, fun h =>
      ⟨h, fun _ => ⟨rfl, rfl⟩, fun q hq => absurd nil_prefix hq⟩⟩
  | cons name rest ih =>
    obtain ⟨current, hcurrent, hrest⟩ := loadAncestors_cons hload
    have hcur : DirAt es name current := by
      unfold DirAt
      rw [hdir, Option.getD_some, lookup_eq_named, named_loaded] at hcurrent
      rw [lookup_eq_named]
      cases hnamed : named name es with
      | nil => simpa [hnamed, loaded] using hcurrent
      | cons x xs => simpa [hnamed, loaded] using hcurrent
    rw [hdir, Option.getD_some] at hrest
    have hsub : ¬ dir ++ name :: rest <+: dir := fun hp => by
      have := hp.length_le
      simp at this
    have hat : written dir = some (setOrAddTreeEntry name .dirty (loaded es)) := by
      rw [hwritten dir hsub, loadAncestors_frame hrest fun p _ => by simp, update_of_ne (by simp),
        update_self]
    cases fuel with
    | zero => cases hstore
    | succ fuel =>
      rw [storeTrees_succ hat] at hstore
      obtain ⟨child, hchild, hfound, honly⟩ := lookup_of_dirty hstore named_setOrAdd_self
      have hstep : dir ++ name :: rest = dir ++ [name] ++ rest := by simp
      rw [hstep] at hwritten ⊢
      obtain ⟨base, top, fuel', hbase, htop, htree, hunique⟩ :=
        ih (update_self ..) hrest hwritten hchild
      refine ⟨base, top, fuel', hbase, htop, fun hne => ?_, fun huniq => ?_⟩
      · obtain ⟨hchild, htree⟩ := htree hne
        have hlook := hfound hchild
        refine ⟨fun hnil => by simp [hnil] at hlook, fun q => ?_⟩
        simp only [cons_append, treeAt, hlook]
        exact htree q
      · have hchildAt : DirAt t name child := by
          refine honly ?_
          have hnodup : ((loaded es).map Prod.fst).Nodup := by
            simpa [loaded, comp_def] using huniq.1
          exact named_tail hnodup
        obtain ⟨hbaseUnique, hbelow, hframe⟩ := hunique (huniq.step hcur)
        refine ⟨hbaseUnique, fun q => ?_, fun q hq => ?_⟩
        · rw [cons_append, hcur.fileAt, hchildAt.fileAt]
          exact hbelow q
        · cases q with
          | nil => rfl
          | cons n q =>
            by_cases hn : n = name
            · subst hn
              rw [hchildAt.fileAt, hcur.fileAt]
              exact hframe q fun hp => hq (cons_prefix_cons.mpr ⟨rfl, hp⟩)
            · exact fileAt_congr (lookup_of_loaded hstore (named_setOrAdd_ne hn))

/-- Among the loaded trees only those of the package `parent/lastPart` and its entry are
    written. -/
structure WritesOnly (trees written : Trees) (parent : List Str) (lastPart : Str) : Prop where
  outside : ∀ d, ¬ parent <+: d → written d = trees d
  siblings : ∃ entries, written parent = some entries ∧
    ∀ n, n ≠ lastPart → named n entries = named n ((trees parent).getD [])

theorem writesOnly_placePackage (trees : Trees) (parent : List Str) (lastPart : Str)
    (packageTree : Option Tree) :
    WritesOnly trees (placePackage trees parent lastPart packageTree) parent lastPart := by
  have hself : ∀ d, ¬ parent <+: d → d ≠ parent ∧ d ≠ parent ++ [lastPart] := fun d hd =>
    ⟨fun heq => hd (heq ▸ prefix_rfl), fun heq => hd (heq ▸ prefix_append ..)⟩
  cases packageTree with
  | none =>
    refine ⟨fun d hd => update_of_ne (hself d hd).1 _ _, _, update_self .., fun n hn => ?_⟩
    rw [named_remove, if_neg hn]
  | some t =>
    refine ⟨fun d hd => ?_, _, update_self .., fun n hn => named_setOrAdd_ne hn⟩
    exact (update_of_ne (hself d hd).1 _ _).trans (update_of_ne (hself d hd).2 _ _)

/-- **Only the package changes.** A commit that writes to the package `ancestors/lastPart` only
    leaves the files at every path that is not in the package. -/
theorem WritesOnly.frame (hw : WritesOnly trees' written (dir ++ rest) lastPart)
    (hdir : trees dir = some (loaded es)) (huniq : UniqueAlong es (rest ++ [lastPart]))
    (hload : loadAncestors dir rest trees = .ok trees') (hstore : storeTrees written fuel dir = .ok t)
    (hq : ¬ rest ++ [lastPart] <+: q) : fileAt t q = fileAt es q := by
  obtain ⟨base, top, fuel', hbase, htop, -, hunique⟩ :=
    storeTrees_down [lastPart] hdir hload hw.outside hstore
  obtain ⟨-, hbelow, hframe⟩ := hunique huniq
  by_cases hrest : rest <+: q
  · obtain ⟨q, rfl⟩ := hrest
    rw [(hbelow q).1, (hbelow q).2]
    obtain ⟨entries, hat, hnamed⟩ := hw.siblings
    rw [hbase] at hnamed
    cases fuel' with
    | zero => cases htop
    | succ fuel' =>
      rw [storeTrees_succ hat] at htop
      cases q with
      | nil => rfl
      | cons n q =>
        have hn : n ≠ lastPart := fun heq => hq (by simp [heq])
        exact fileAt_congr (lookup_of_loaded htop (hnamed n hn))
  · exact hframe q hrest

/-- **The package tree is in its place.** Storing a commit that puts a package tree at
    `ancestors/lastPart`, or removes the package, gives a tree that has it there. -/
theorem package_placed {packageTree : Option Tree} (hdir : trees dir = some (loaded es))
    (hload : loadAncestors dir rest trees = .ok trees')
    (hstore : storeTrees (placePackage trees' (dir ++ rest) lastPart packageTree) fuel dir = .ok t) :
    (∀ pt ∈ packageTree, pt ≠ [] → treeAt t (rest ++ [lastPart]) = some pt) ∧
      (UniqueAlong es (rest ++ [lastPart]) →
        ∀ q, fileAt t (rest ++ lastPart :: q) = fileAt (packageTree.getD []) q) := by
  obtain ⟨base, top, fuel', hbase, htop, htree, hunique⟩ := storeTrees_down [lastPart] hdir
    hload (writesOnly_placePackage trees' (dir ++ rest) lastPart packageTree).outside hstore
  have honly : UniqueAlong base [lastPart] → (named lastPart (loaded base)).tail = [] := fun h =>
    named_tail (by simpa [loaded, comp_def] using h.1)
  suffices hat : (∀ pt ∈ packageTree, pt ≠ [] → top.lookup lastPart = some (.dir pt)) ∧
      (UniqueAlong base [lastPart] → DirAt top lastPart (packageTree.getD [])) by
    refine ⟨fun pt hpt hne => ?_, fun huniq q => ?_⟩
    · have hlook := hat.1 pt hpt hne
      rw [(htree fun hnil => by simp [hnil] at hlook).2, treeAt, hlook]
      rfl
    · obtain ⟨hbaseUnique, hbelow, -⟩ := hunique huniq
      rw [(hbelow _).2, (hat.2 hbaseUnique).fileAt]
  cases fuel' with
  | zero => cases htop
  | succ fuel' =>
    cases packageTree with
    | none =>
      have hpar : placePackage trees' (dir ++ rest) lastPart none (dir ++ rest) =
          some (removeTreeEntry lastPart (loaded base)) := by
        rw [placePackage, update_self, hbase]
        rfl
      rw [storeTrees_succ hpar] at htop
      refine ⟨nofun, fun h => .inl ⟨?_, rfl⟩⟩
      have hnamed := stored_named (n := lastPart) htop
      rw [named_remove, if_pos rfl, honly h] at hnamed
      rw [lookup_eq_named, ← Except.ok.inj hnamed]
      rfl
    | some pt =>
      have hpkg : placePackage trees' (dir ++ rest) lastPart (some pt)
          (dir ++ rest ++ [lastPart]) = some (loaded pt) :=
        (update_of_ne (by simp) _ _).trans (update_self ..)
      have hpar : placePackage trees' (dir ++ rest) lastPart (some pt) (dir ++ rest) =
          some (setOrAddTreeEntry lastPart .dirty (loaded base)) := by
        rw [placePackage, update_self, hbase]
        rfl
      rw [storeTrees_succ hpar] at htop
      obtain ⟨child, hchild, hfound, hdirAt⟩ := lookup_of_dirty htop named_setOrAdd_self
      cases fuel' with
      | zero => cases hchild
      | succ fuel' =>
        rw [storeTrees_loaded hpkg] at hchild
        cases hchild
        refine ⟨?_, fun h => hdirAt (honly h)⟩
        rintro _ ⟨⟩
        exact hfound

end Replace

end Porch.Git
