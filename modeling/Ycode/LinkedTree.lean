import Mathlib

/-!
# Looking paths up in a tree with symbolic links

A lookup goes down from the root name by name. A symbolic link on the way is
replaced by its target; one at the very end is followed only on request. What
decides a lookup besides the directories is its `trail`: the links it follows
and the place it ends at. Files that come and go off the trail do not change
the outcome, and a lookup whose trail loses a place finds nothing any more.
-/
namespace LinkedTree

variable {N C : Type}

inductive Entry (N C : Type) where
  | file (contents : C)
  | directory
  | symlink (target : List N)
  deriving DecidableEq, Repr

/-- A place is a list of names, innermost first; the root is `[]`. -/
abbrev Tree (N C : Type) := List N → Option (Entry N C)

inductive LookupError where
  | notFound | notADirectory | tooManyLinks
  deriving DecidableEq, Repr

/-- Go down from a directory with the names that are left, outermost first. `jump` is where
a link goes on, with its target and the names behind it. -/
def descend (tree : Tree N C) (follow : Bool) (jump : List N → Except LookupError (List N)) :
    List N → List N → Except LookupError (List N)
  | dir, [] => .ok dir
  | dir, name :: rest =>
    match tree (name :: dir) with
    | some (.symlink target) =>
      if rest = [] ∧ follow = false then .ok (name :: dir) else jump (target.reverse ++ rest)
    | some .directory => descend tree follow jump (name :: dir) rest
    | some (.file _) => if rest = [] then .ok (name :: dir) else .error .notADirectory
    | none => if rest = [] then .ok (name :: dir) else .error .notFound

/-- A lookup that may follow so many links. -/
def walk (tree : Tree N C) (follow : Bool) : Nat → List N → List N → Except LookupError (List N)
  | 0 => descend tree follow fun _ => .error .tooManyLinks
  | links + 1 => descend tree follow (walk tree follow links [])

/-- The links on the way down and the place at its end, as if missing directories were there. -/
def descendTrail (tree : Tree N C) (jump : List N → List (List N)) : List N → List N → List (List N)
  | dir, [] => [dir]
  | dir, name :: rest =>
    match tree (name :: dir) with
    | some (.symlink target) => (name :: dir) :: jump (target.reverse ++ rest)
    | some (.file _) => [name :: dir]
    | some .directory => descendTrail tree jump (name :: dir) rest
    | none => descendTrail tree jump (name :: dir) rest

/-- What a lookup that follows links comes by. -/
def trail (tree : Tree N C) : Nat → List N → List N → List (List N)
  | 0 => descendTrail tree fun _ => []
  | links + 1 => descendTrail tree (trail tree links [])

@[simp] theorem walk_nil (tree : Tree N C) (follow : Bool) (links : Nat) (dir : List N) :
    walk tree follow links dir [] = .ok dir := by
  cases links <;> rfl

@[simp] theorem trail_nil (tree : Tree N C) (links : Nat) (dir : List N) : trail tree links dir [] = [dir] := by
  cases links <;> rfl

theorem walk_cons (tree : Tree N C) (follow : Bool) (links : Nat) (dir : List N) (name : N) (rest : List N) :
    walk tree follow links dir (name :: rest) =
      match tree (name :: dir) with
      | some (.symlink target) =>
        if rest = [] ∧ follow = false then .ok (name :: dir)
        else if links = 0 then .error .tooManyLinks
        else walk tree follow (links - 1) [] (target.reverse ++ rest)
      | some .directory => walk tree follow links (name :: dir) rest
      | some (.file _) => if rest = [] then .ok (name :: dir) else .error .notADirectory
      | none => if rest = [] then .ok (name :: dir) else .error .notFound := by
  cases links <;> rfl

theorem trail_cons (tree : Tree N C) (links : Nat) (dir : List N) (name : N) (rest : List N) :
    trail tree links dir (name :: rest) =
      match tree (name :: dir) with
      | some (.symlink target) =>
        (name :: dir) :: if links = 0 then [] else trail tree (links - 1) [] (target.reverse ++ rest)
      | some (.file _) => [name :: dir]
      | some .directory => trail tree links (name :: dir) rest
      | none => trail tree links (name :: dir) rest := by
  cases links <;> rfl

/-- Lookups go on with fewer names, or with fewer links to follow. -/
theorem lookup_induction {motive : Nat → List N → List N → Prop} (nil : ∀ links dir, motive links dir [])
    (cons : ∀ links dir name rest, motive links (name :: dir) rest →
      (links ≠ 0 → ∀ names, motive (links - 1) [] names) → motive links dir (name :: rest))
    (links : Nat) (dir names : List N) : motive links dir names := by
  induction links generalizing dir names with
  | zero =>
    induction names generalizing dir with
    | nil => exact nil 0 dir
    | cons name rest ih => exact cons 0 dir name rest (ih _) fun h0 => absurd rfl h0
  | succ links ihlinks =>
    induction names generalizing dir with
    | nil => exact nil _ dir
    | cons name rest ih => exact cons _ dir name rest (ih _) fun _ names => ihlinks [] names

/-- The same tree with more directories. -/
def Grown (tree tree' : Tree N C) : Prop :=
  ∀ place, tree' place = tree place ∨ (tree place = none ∧ tree' place = some .directory)

theorem Grown.refl (tree : Tree N C) : Grown tree tree := fun _ => .inl rfl

theorem Grown.trans {a b c : Tree N C} (hab : Grown a b) (hbc : Grown b c) : Grown a c := by
  intro place
  rcases hab place, hbc place with ⟨hb | hb, hc | hc⟩ <;> simp_all

theorem trail_grown {tree tree' : Tree N C} (h : Grown tree tree') (links : Nat) (dir names : List N) :
    trail tree' links dir names = trail tree links dir names := by
  induction links, dir, names using lookup_induction with
  | nil links dir => rw [trail_nil, trail_nil]
  | cons links dir name rest hdown hjump =>
    rw [trail_cons, trail_cons]
    rcases h (name :: dir) with hsame | ⟨hnone, hnew⟩
    · rw [hsame]
      split
      · by_cases h0 : links = 0
        · simp [h0]
        · simp [h0, hjump h0]
      · rfl
      · exact hdown
      · exact hdown
    · rw [hnone, hnew]
      exact hdown

/-- A successful lookup, name by name. -/
inductive Leads (tree : Tree N C) (follow : Bool) (place : List N) : Nat → List N → List N → Prop where
  | done : Leads tree follow place links place []
  | last (hplace : place = name :: dir) (hdir : tree place ≠ some .directory)
      (hlink : ∀ target, tree place = some (.symlink target) → follow = false) :
      Leads tree follow place links dir [name]
  | down (hhere : tree (name :: dir) = some .directory) (h : Leads tree follow place links (name :: dir) rest) :
      Leads tree follow place links dir (name :: rest)
  | link (hhere : tree (name :: dir) = some (.symlink target)) (hmore : ¬ (rest = [] ∧ follow = false))
      (h : Leads tree follow place links [] (target.reverse ++ rest)) :
      Leads tree follow place (links + 1) dir (name :: rest)

theorem leads_of_walk {tree : Tree N C} (h : walk tree follow links dir names = .ok place) :
    Leads tree follow place links dir names := by
  induction links, dir, names using lookup_induction with
  | nil links dir =>
    rw [walk_nil] at h
    obtain rfl := Except.ok.inj h
    exact .done
  | cons links dir name rest hdown hjump =>
    rw [walk_cons] at h
    split at h
    · rename_i target hhere
      split at h
      · rename_i hlast
        obtain rfl := Except.ok.inj h
        rw [hlast.1]
        exact .last rfl (by simp [hhere]) fun _ _ => hlast.2
      · rename_i hmore
        split at h
        · cases h
        · rename_i h0
          obtain ⟨n, rfl⟩ := Nat.exists_eq_succ_of_ne_zero h0
          exact .link hhere hmore (hjump h0 _ h)
    · rename_i hhere
      exact .down hhere (hdown h)
    · rename_i hhere
      split at h
      · rename_i hlast
        obtain rfl := Except.ok.inj h
        rw [hlast]
        exact .last rfl (by simp [hhere]) (by simp [hhere])
      · cases h
    · rename_i hhere
      split at h
      · rename_i hlast
        obtain rfl := Except.ok.inj h
        rw [hlast]
        exact .last rfl (by simp [hhere]) (by simp [hhere])
      · cases h

theorem Leads.mem_trail {tree : Tree N C} (h : Leads tree true place links dir names) :
    place ∈ trail tree links dir names := by
  induction h with
  | done => simp
  | last hhere hdir hlink =>
    subst hhere
    rw [trail_cons]
    split <;> simp_all
  | down hhere _ ih => simpa [trail_cons, hhere] using ih
  | link hhere _ _ ih => simp [trail_cons, hhere, ih]

/-- What stands at the place that a lookup came to. -/
def entryOf (tree : Tree N C) : Except LookupError (List N) → Except LookupError (Entry N C)
  | .error e => .error e
  | .ok place =>
    match tree place with
    | none => .error .notFound
    | some entry => .ok entry

section Changed

variable {tree tree' : Tree N C} {place gone : List N}

/-- The tree has changed only at the end of the lookup and off its trail: the
lookup ends where it did. -/
theorem Leads.off_trail (h : Leads tree true place links dir names)
    (hplace : tree place ≠ some .directory) (hlink : ∀ target, tree place ≠ some (.symlink target))
    (hgone : tree gone ≠ some .directory) (hoff : gone ∉ trail tree links dir names)
    (hsame : ∀ p, p ≠ gone → p ≠ place → tree' p = tree p) (hfile : tree' place = some (.file contents)) :
    walk tree' true links dir names = .ok place := by
  induction h with
  | done => rw [walk_nil]
  | last hhere _ _ =>
    subst hhere
    simp [walk_cons, hfile]
  | @down name dir links rest hhere _ ih =>
    have hne : name :: dir ≠ place := fun he => hplace (he ▸ hhere)
    have hne' : name :: dir ≠ gone := fun he => hgone (he ▸ hhere)
    rw [trail_cons, hhere] at hoff
    simp [walk_cons, hsame _ hne' hne, hhere, ih hoff]
  | @link name dir target rest links hhere _ _ ih =>
    have hne : name :: dir ≠ place := fun he => hlink _ (he ▸ hhere)
    simp only [trail_cons, hhere, Nat.add_eq_zero_iff, one_ne_zero, and_false, ↓reduceIte, Nat.add_sub_cancel,
      List.mem_cons, not_or] at hoff
    simp [walk_cons, hsame _ (Ne.symm hoff.1) hne, hhere, ih hoff.2]

/-- A place on the trail is gone: the lookup finds nothing any more. -/
theorem Leads.trail_broken (h : Leads tree true place links dir names)
    (hplace : tree place ≠ some .directory) (hlink : ∀ target, tree place ≠ some (.symlink target))
    (hgone : tree gone ≠ some .directory) (hon : gone ∈ trail tree links dir names)
    (hsame : ∀ p, p ≠ gone → p ≠ place → tree' p = tree p) (hnone : tree' gone = none) :
    entryOf tree' (walk tree' true links dir names) = .error .notFound := by
  induction h with
  | done =>
    rw [trail_nil, List.mem_singleton] at hon
    simp [entryOf, ← hon, hnone]
  | @last name dir links hhere _ _ =>
    subst hhere
    have heq : gone = name :: dir := by
      rw [trail_cons] at hon
      split at hon <;> simp_all
    simp [walk_cons, entryOf, ← heq, hnone]
  | @down name dir links rest hhere _ ih =>
    have hne : name :: dir ≠ place := fun he => hplace (he ▸ hhere)
    have hne' : name :: dir ≠ gone := fun he => hgone (he ▸ hhere)
    rw [trail_cons, hhere] at hon
    simp [walk_cons, hsame _ hne' hne, hhere, ih hon]
  | @link name dir target rest links hhere _ _ ih =>
    have hne : name :: dir ≠ place := fun he => hlink _ (he ▸ hhere)
    by_cases heq : name :: dir = gone
    · rw [walk_cons, heq, hnone]
      by_cases hr : rest = [] <;> simp [hr, entryOf, hnone]
    · simp only [trail_cons, hhere, Nat.add_eq_zero_iff, one_ne_zero, and_false, ↓reduceIte, Nat.add_sub_cancel,
        List.mem_cons] at hon
      have hrest := hon.resolve_left (Ne.symm heq)
      simp [walk_cons, hsame _ heq hne, hhere, ih hrest]

/-- The entry that a lookup ends at is gone. -/
theorem Leads.end_gone (h : Leads tree false gone links dir names) (hgone : tree gone ≠ some .directory)
    (hsame : ∀ p, p ≠ gone → tree' p = tree p) (hnone : tree' gone = none) :
    entryOf tree' (walk tree' false links dir names) = .error .notFound := by
  induction h with
  | done => simp [entryOf, hnone]
  | last hhere _ _ =>
    subst hhere
    simp [walk_cons, entryOf, hnone]
  | @down name dir links rest hhere _ ih =>
    have hne : name :: dir ≠ gone := fun he => hgone (he ▸ hhere)
    simp [walk_cons, hsame _ hne, hhere, ih]
  | @link name dir target rest links hhere hmore _ ih =>
    have hrest : rest ≠ [] := fun h => hmore ⟨h, rfl⟩
    by_cases heq : name :: dir = gone
    · simp [walk_cons, heq, hnone, hrest, entryOf]
    · simp [walk_cons, hsame _ heq, hhere, hrest, ih]

/-- Entries that are there stay, up to the contents of files: the lookup of an
entry ends where it did. -/
theorem Leads.kept (h : Leads tree follow place links dir names) (hthere : tree place ≠ none)
    (hkept : ∀ name dir, tree (name :: dir) ≠ none → tree' (name :: dir) = tree (name :: dir) ∨
      ∃ c c', tree (name :: dir) = some (.file c) ∧ tree' (name :: dir) = some (.file c')) :
    walk tree' follow links dir names = .ok place := by
  induction h with
  | done => rw [walk_nil]
  | @last name dir links hhere hdir hlink =>
    subst hhere
    rw [walk_cons]
    rcases hkept _ _ hthere with hsame | ⟨c, c', -, hfile⟩
    · rw [hsame]
      split <;> simp_all
    · simp [hfile]
  | @down name dir links rest hhere _ ih =>
    have hsame := (hkept name dir (by simp [hhere])).resolve_right (by simp [hhere])
    simp [walk_cons, hsame, hhere, ih]
  | @link name dir target rest links hhere hmore _ ih =>
    have hsame := (hkept name dir (by simp [hhere])).resolve_right (by simp [hhere])
    rw [walk_cons, hsame, hhere]
    simp [hmore, ih]

end Changed

/-- Where a lookup finds something, so does the one that does not follow a link
at the end. -/
theorem Leads.exists_entry {tree : Tree N C} (h : Leads tree true place links dir names) (hthere : tree place ≠ none) :
    ∃ entry, walk tree false links dir names = .ok entry ∧ tree entry ≠ none := by
  induction h with
  | done => exact ⟨place, by rw [walk_nil], hthere⟩
  | @last name dir links hhere hdir hlink =>
    subst hhere
    refine ⟨_, ?_, hthere⟩
    rw [walk_cons]
    split <;> simp_all
  | @down name dir links rest hhere _ ih => simpa [walk_cons, hhere] using ih
  | @link name dir target rest links hhere _ _ ih =>
    rw [walk_cons, hhere]
    by_cases hr : rest = []
    · exact ⟨name :: dir, by simp [hr], by simp [hhere]⟩
    · simpa [hr] using ih

end LinkedTree
