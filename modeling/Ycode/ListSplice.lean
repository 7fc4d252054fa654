import Mathlib

/-!
# Splicing segments into a list

An edit names a region of a list and the segment that takes its place. A batch
of edits has a declarative meaning, `splice`, which visits each position once:
the segments of the edits that start there come first, then the element itself
when no region covers it. The operational counterpart `editAll` carries out the
edits one after the other, last first, on the changing list. The two agree when
each edit stops before the next one starts.
-/
namespace ListSplice

open List

variable {α : Type}

/-- Replace the `oldLen` elements from `start` on by `segment`. -/
structure Edit (α : Type) where
  start : Nat
  oldLen : Nat
  segment : List α
  deriving DecidableEq, Repr

def Edit.stop (e : Edit α) : Nat := e.start + e.oldLen

variable {e : Edit α} {l : List α} {es : List (Edit α)} {x y : List α}

theorem Edit.start_le_stop (e : Edit α) : e.start ≤ e.stop := Nat.le_add_right ..

theorem Edit.stop_eq_start (h : e.oldLen = 0) : e.stop = e.start := by
  simp [Edit.stop, h]

/-- One edit, carried out in place. -/
def edit (l : List α) (e : Edit α) : List α := l.take e.start ++ e.segment ++ l.drop e.stop

/-- A batch of edits, the last one first. -/
def editAll (l : List α) (es : List (Edit α)) : List α := es.foldr (fun e acc => edit acc e) l

@[simp] theorem editAll_nil : editAll l [] = l := rfl
@[simp] theorem editAll_cons : editAll l (e :: es) = edit (editAll l es) e := rfl
theorem editAll_append :
    editAll l (es ++ fs) = editAll (editAll l fs) es := by simp [editAll]

/-- No edit of the batch removes the element at `i`. -/
def Kept (es : List (Edit α)) (i : Nat) : Prop := ∀ e ∈ es, ¬ (e.start ≤ i ∧ i < e.stop)

instance (es : List (Edit α)) (i : Nat) : Decidable (Kept es i) := by
  unfold Kept; infer_instance

/-- What position `i` of the list turns into. -/
def cell (l : List α) (es : List (Edit α)) (i : Nat) : List α :=
  (es.filter (·.start == i)).flatMap Edit.segment ++ (if Kept es i then l[i]?.toList else [])

/-- Every region substituted by its segment, every other element kept once and
in its place. -/
def splice (l : List α) (es : List (Edit α)) : List α := (List.range (l.length + 1)).flatMap (cell l es)

/-- Two edits whose regions do not overlap, and neither of which inserts
strictly inside the other. -/
def Apart (a b : Edit α) : Prop :=
  (0 < a.oldLen → 0 < b.oldLen → a.stop ≤ b.start ∨ b.stop ≤ a.start) ∧
    (a.oldLen = 0 → ¬ (b.start < a.start ∧ a.start < b.stop)) ∧
    (b.oldLen = 0 → ¬ (a.start < b.start ∧ b.start < a.stop))

instance (a b : Edit α) : Decidable (Apart a b) := by unfold Apart; infer_instance

theorem Apart.symm (h : Apart a b) : Apart b a := ⟨fun hb ha => (h.1 ha hb).symm, h.2.2, h.2.1⟩

instance : Std.Symm (Apart : Edit α → Edit α → Prop) := ⟨fun _ _ => Apart.symm⟩

/-- Each edit stops before the next one starts. -/
def Chained (es : List (Edit α)) : Prop := es.Pairwise fun a b => a.stop ≤ b.start

/-! ## Positions from a cut on -/

/-- The part of the splice that starts at position `k`. -/
def spliceFrom (l : List α) (es : List (Edit α)) (k : Nat) : List α :=
  (List.range' k (l.length + 1 - k)).flatMap (cell l es)

theorem splice_eq_spliceFrom : splice l es = spliceFrom l es 0 := by
  simp [splice, spliceFrom, range_eq_range']

theorem spliceFrom_step (h : k ≤ l.length) : spliceFrom l es k = cell l es k ++ spliceFrom l es (k + 1) := by
  have hn : l.length + 1 - k = (l.length - k) + 1 := by omega
  have hm : l.length + 1 - (k + 1) = l.length - k := by omega
  rw [spliceFrom, spliceFrom, hn, hm, range'_succ, flatMap_cons]

theorem spliceFrom_end (h : l.length < k) : spliceFrom l es k = [] := by
  have hn : l.length + 1 - k = 0 := by omega
  simp [spliceFrom, hn]

/-- A position before every edit holds just its element. -/
theorem cell_before (h : ∀ e ∈ es, i < e.start) : cell l es i = l[i]?.toList := by
  have hk : Kept es i := by
    intro e he hc
    have := h e he
    omega
  have hf : es.filter (·.start == i) = [] := by
    rw [filter_eq_nil_iff]
    intro e he
    have := h e he
    simp only [beq_iff_eq]
    omega
  simp [cell, hf, hk]

/-- Up to the first edit the splice copies the list. -/
theorem spliceFrom_before (h : ∀ e ∈ es, j + n ≤ e.start) (hn : j + n ≤ l.length) :
    spliceFrom l es j = (l.drop j).take n ++ spliceFrom l es (j + n) := by
  induction n generalizing j with
  | zero => simp
  | succ n ih =>
    have hj : j < l.length := by omega
    rw [spliceFrom_step (by omega : j ≤ l.length),
      cell_before (fun e he => by have := h e he; omega),
      ih (j := j + 1) (fun e he => by have := h e he; omega) (by omega),
      drop_eq_getElem_cons hj, take_succ_cons]
    simp [getElem?_eq_getElem hj, Nat.add_assoc, Nat.add_comm 1 n]

theorem splice_before (h : ∀ e ∈ es, n ≤ e.start) (hn : n ≤ l.length) :
    splice l es = l.take n ++ spliceFrom l es n := by
  rw [splice_eq_spliceFrom, spliceFrom_before (j := 0) (n := n) (by simpa using h) (by simpa using hn)]
  simp

/-- Past its own region an edit has no part in the splice. -/
theorem cell_cons_after (hs : e.start ≠ i) (ht : e.stop ≤ i ∨ i < e.start) : cell l (e :: es) i = cell l es i := by
  have hk : Kept (e :: es) i ↔ Kept es i := by
    simp only [Kept, mem_cons, forall_eq_or_imp, and_iff_right_iff_imp]
    intro _ hc
    omega
  simp [cell, hs, hk]

theorem spliceFrom_cons_after
    (hs : e.start < k) (ht : e.stop ≤ k) : spliceFrom l (e :: es) k = spliceFrom l es k := by
  rw [spliceFrom, spliceFrom]
  have hm : ∀ i ∈ List.range' k (l.length + 1 - k), cell l (e :: es) i = cell l es i := by
    intro i hi
    have := (mem_range'_1.mp hi).1
    exact cell_cons_after (by omega) (Or.inl (by omega))
  rw [flatMap_def, flatMap_def, map_congr_left hm]

/-- A region is skipped once its segment has been written. -/
theorem spliceFrom_inside (hk : e.start < k) (hn : k + n = e.stop) (hs : e.stop ≤ l.length)
    (h : ∀ f ∈ es, e.stop ≤ f.start) :
    spliceFrom l (e :: es) k = spliceFrom l es e.stop := by
  induction n generalizing k with
  | zero =>
    have hke : k = e.stop := by omega
    rw [hke, spliceFrom_cons_after (by omega) (le_refl _)]
  | succ n ih =>
    have hc : cell l (e :: es) k = [] := by
      have hf : (e :: es).filter (·.start == k) = [] := by
        rw [filter_eq_nil_iff]
        intro f hf
        rcases mem_cons.mp hf with rfl | hf
        · simp only [beq_iff_eq]; omega
        · have := h f hf
          simp only [beq_iff_eq]; omega
      have hnk : ¬ Kept (e :: es) k := by
        intro hcon
        exact hcon e (by simp) ⟨by omega, by omega⟩
      simp [cell, hf, hnk]
    rw [spliceFrom_step (by omega : k ≤ l.length), hc, nil_append]
    exact ih (by omega) (by omega)

/-- The first edit of a chained batch writes its segment and hands over to the rest. -/
theorem spliceFrom_cons (hs : e.stop ≤ l.length) (h : ∀ f ∈ es, e.stop ≤ f.start) :
    spliceFrom l (e :: es) e.start = e.segment ++ spliceFrom l es e.stop := by
  have hl : (e :: es).filter (·.start == e.start) = e :: es.filter (·.start == e.start) := by simp
  rcases Nat.eq_zero_or_pos e.oldLen with h0 | hp
  · have hst : e.stop = e.start := Edit.stop_eq_start h0
    have hk : Kept (e :: es) e.start ↔ Kept es e.start := by
      simp only [Kept, mem_cons, forall_eq_or_imp, and_iff_right_iff_imp]
      intro _ hc
      omega
    rw [spliceFrom_step (by omega : e.start ≤ l.length), hst,
      spliceFrom_step (by omega : e.start ≤ l.length),
      spliceFrom_cons_after (by omega) (by omega)]
    simp [cell, hk]
  · have hlt : e.start < e.stop := by simp only [Edit.stop]; omega
    have he : es.filter (·.start == e.start) = [] := by
      rw [filter_eq_nil_iff]
      intro f hf
      have := h f hf
      simp only [beq_iff_eq]
      omega
    have hn : ¬ Kept (e :: es) e.start := by
      intro hc
      exact hc e (by simp) ⟨le_refl _, hlt⟩
    have hi := spliceFrom_inside (n := e.stop - (e.start + 1)) (k := e.start + 1) (l := l)
      (by omega) (by omega) hs h
    rw [spliceFrom_step (by omega : e.start ≤ l.length), hi, cell, hl, he]
    simp [hn]

/-! ## Carrying the edits out -/

/-- Chained edits, last first, build exactly the splice. -/
theorem editAll_eq_splice (hc : Chained es) (hb : ∀ e ∈ es, e.stop ≤ l.length) : editAll l es = splice l es := by
  induction es with
  | nil =>
    have hnone : ∀ e ∈ ([] : List (Edit α)), l.length ≤ e.start := by simp
    rw [splice_before hnone (le_refl _), spliceFrom_step (le_refl _), spliceFrom_end (Nat.lt_succ_self _)]
    simp [cell]
  | cons e es ih =>
    obtain ⟨hn, hr⟩ := pairwise_cons.mp hc
    have hs := hb e (by simp)
    have hle := e.start_le_stop
    have hl : (l.take e.stop).length = e.stop := by simp [hs]
    have he : editAll l es = l.take e.stop ++ spliceFrom l es e.stop := by
      rw [ih hr fun f hf => hb f (by simp [hf]), splice_before hn hs]
    have hfirst : ∀ f ∈ e :: es, e.start ≤ f.start := by
      intro f hf
      rcases mem_cons.mp hf with rfl | hf
      · exact le_refl _
      · have := hn f hf
        omega
    rw [editAll_cons, he, edit, splice_before hfirst (by omega), spliceFrom_cons hs hn,
      take_append_of_le_length (by omega), take_take, Nat.min_eq_left hle,
      drop_append_of_le_length (by omega), drop_eq_nil_of_le (by omega)]
    simp

theorem edit_append (h : e.stop ≤ x.length) : edit (x ++ y) e = edit x e ++ y := by
  have := e.start_le_stop
  rw [edit, edit, take_append_of_le_length (by omega), drop_append_of_le_length h]
  simp

/-- Edits that stay inside a front part leave everything behind it alone. -/
theorem editAll_append_list (hc : Chained es)
    (hb : ∀ e ∈ es, e.stop ≤ x.length) : editAll (x ++ y) es = editAll x es ++ y := by
  induction es with
  | nil => rfl
  | cons e es ih =>
    obtain ⟨hn, hr⟩ := pairwise_cons.mp hc
    have hbelow : ∀ f ∈ es, f.stop ≤ x.length := fun f hf => hb f (by simp [hf])
    have hl : e.stop ≤ (editAll x es).length := by
      rw [editAll_eq_splice hr hbelow, splice_before hn (hb e (by simp))]
      simp [hb e (by simp)]
    rw [editAll_cons, ih hr hbelow, edit_append hl, editAll_cons]

/-- An edit whose start is where a front part ends. -/
theorem edit_at (h : e.start = x.length) : edit (x ++ y) e = x ++ (e.segment ++ y.drop e.oldLen) := by
  have hd : (x ++ y).drop e.stop = y.drop e.oldLen := by
    rw [Edit.stop, h, drop_append]
    simp
  rw [edit, hd, h, take_left, append_assoc]

/-- Insertions at one point land in batch order. -/
theorem editAll_insertions (hb : ∀ b ∈ bs, b.start = x.length ∧ b.oldLen = 0) :
    editAll (x ++ y) bs = x ++ (bs.flatMap Edit.segment ++ y) := by
  induction bs with
  | nil => rfl
  | cons b bs ih =>
    obtain ⟨hs, ho⟩ := hb b (by simp)
    rw [editAll_cons, ih fun c hc => hb c (by simp [hc]), edit_at hs, ho]
    simp

/-- An insertion shows up at its own position only. -/
theorem cell_insertions (hbs : ∀ b ∈ bs, b.start ≠ i ∧ b.oldLen = 0) :
    cell l (xs ++ bs ++ ys) i = cell l (xs ++ ys) i := by
  have hf : bs.filter (·.start == i) = [] := by
    rw [filter_eq_nil_iff]
    intro b hb
    simpa using (hbs b hb).1
  have hk : Kept (xs ++ bs ++ ys) i ↔ Kept (xs ++ ys) i := by
    constructor
    · intro h e he
      exact h e (by simp only [mem_append] at he ⊢; tauto)
    · intro h e he hc
      simp only [mem_append] at he
      rcases he with (he | he) | he
      · exact h e (by simp [he]) hc
      · have := Edit.stop_eq_start (hbs e he).2
        omega
      · exact h e (by simp [he]) hc
  simp only [cell, hk, filter_append, hf, append_nil]

theorem spliceFrom_append_after (h : ∀ e ∈ xs, e.stop < k) : spliceFrom l (xs ++ ys) k = spliceFrom l ys k := by
  induction xs with
  | nil => rfl
  | cons e xs ih =>
    have he := h e (by simp)
    have hle := e.start_le_stop
    rw [cons_append, spliceFrom_cons_after (by omega) (by omega)]
    exact ih fun f hf => h f (by simp [hf])

theorem spliceFrom_congr (h : ∀ i, k ≤ i → cell l es i = cell l fs i) : spliceFrom l es k = spliceFrom l fs k := by
  have hm : ∀ i ∈ List.range' k (l.length + 1 - k), cell l es i = cell l fs i :=
    fun i hi => h i (mem_range'_1.mp hi).1
  rw [spliceFrom, spliceFrom, flatMap_def, flatMap_def, map_congr_left hm]

theorem splice_split (l : List α) (es : List (Edit α)) (hk : k ≤ l.length) :
    splice l es = (List.range k).flatMap (cell l es) ++ (cell l es k ++ spliceFrom l es (k + 1)) := by
  rw [← spliceFrom_step hk, splice, spliceFrom, ← flatMap_append]
  have h := range'_append_1 (s := 0) (m := k) (n := l.length + 1 - k)
  rw [Nat.zero_add] at h
  rw [range_eq_range', range_eq_range', h]
  congr 2
  omega

/-! ## A region with insertions at its own start -/

/-- A region and, behind it in the batch, insertions at the region's own start. The edits before
them end in front of the region, those after them start behind it. -/
structure Tie (l : List α) (pre : List (Edit α)) (a : Edit α) (bs post : List (Edit α)) : Prop where
  region : 0 < a.oldLen
  pre_chained : Chained pre
  pre_stop : ∀ e ∈ pre, e.stop ≤ a.start
  insertions : ∀ b ∈ bs, b.start = a.start ∧ b.oldLen = 0
  post_chained : Chained post
  post_start : ∀ e ∈ post, a.stop ≤ e.start
  inside : a.stop ≤ l.length
  post_inside : ∀ e ∈ post, e.stop ≤ l.length

section Ties

variable {pre bs post : List (Edit α)} {a : Edit α}

section

variable (h : Tie l pre a bs post)
include h

theorem Tie.start_lt_stop : a.start < a.stop := by
  have hp := h.region
  simp only [Edit.stop]
  omega

theorem Tie.without : Tie l pre a [] post :=
  { h with insertions := by simp }

theorem Tie.length_region : ((l.drop a.start).take a.oldLen).length = a.oldLen := by
  have hs := h.inside
  simp only [Edit.stop] at hs
  simp only [length_take, length_drop]
  omega

/-- Carried out last first, the insertions are in the way when the region is removed. -/
theorem Tie.editAll_eq : editAll l (pre ++ a :: bs ++ post) = editAll (l.take a.start) pre ++ (a.segment ++
      ((bs.flatMap Edit.segment ++ (l.drop a.start).take a.oldLen).drop a.oldLen ++ spliceFrom l post a.stop)) := by
  have hlt := h.start_lt_stop
  have hstop := h.inside
  have hs : (l.take a.start).length = a.start := by simp; omega
  have hpre : ∀ e ∈ pre, e.stop ≤ (l.take a.start).length := by simpa [hs] using h.pre_stop
  have hb : ∀ b ∈ bs, b.start = (l.take a.start).length ∧ b.oldLen = 0 := by simpa [hs] using h.insertions
  -- what the edits behind the region leave behind it
  have hp : editAll l post = l.take a.start ++ ((l.drop a.start).take a.oldLen ++ spliceFrom l post a.stop) := by
    have ht : l.take a.stop = l.take a.start ++ (l.drop a.start).take a.oldLen := by
      rw [Edit.stop, take_add]
    rw [editAll_eq_splice h.post_chained h.post_inside, splice_before h.post_start hstop, ht, append_assoc]
  rw [append_assoc, editAll_append, cons_append, editAll_cons, editAll_append, hp,
    editAll_insertions hb, edit_at hs.symm, editAll_append_list h.pre_chained hpre,
    ← append_assoc (bs.flatMap Edit.segment), drop_append_of_le_length (by simp [h.length_region])]

/-- The insertions show up in the splice at the start of the region only. -/
theorem Tie.cell_of_ne (hi : i ≠ a.start) : cell l (pre ++ a :: bs ++ post) i = cell l (pre ++ a :: post) i := by
  have hne : ∀ b ∈ bs, b.start ≠ i ∧ b.oldLen = 0 := fun b hb =>
    ⟨fun hc => hi (by rw [← hc, (h.insertions b hb).1]), (h.insertions b hb).2⟩
  have hbatch : pre ++ a :: bs ++ post = pre ++ [a] ++ bs ++ post := by simp
  rw [hbatch, cell_insertions hne]
  simp

theorem Tie.cell_start :
    cell l (pre ++ a :: bs ++ post) a.start = cell l (pre ++ a :: post) a.start ++ bs.flatMap Edit.segment := by
  have hlt := h.start_lt_stop
  have hp : post.filter (·.start == a.start) = [] := by
    rw [filter_eq_nil_iff]
    intro f hf
    have := h.post_start f hf
    simp only [beq_iff_eq]
    omega
  have hbs : bs.filter (·.start == a.start) = bs := by
    rw [filter_eq_self]
    intro b hb
    simpa using (h.insertions b hb).1
  have hk : ¬ Kept (pre ++ a :: bs ++ post) a.start := fun hc => hc a (by simp) ⟨le_refl _, hlt⟩
  have hk' : ¬ Kept (pre ++ a :: post) a.start := fun hc => hc a (by simp) ⟨le_refl _, hlt⟩
  simp only [cons_append, append_assoc] at hk
  simp [cell, hk, hk', hp, hbs]

theorem Tie.spliceFrom_succ : spliceFrom l (pre ++ a :: post) (a.start + 1) = spliceFrom l post a.stop := by
  have hlt := h.start_lt_stop
  rw [spliceFrom_append_after fun e he => by have := h.pre_stop e he; omega,
    spliceFrom_inside (n := a.stop - (a.start + 1)) (by omega) (by omega) h.inside h.post_start]

/-- Without the insertions the batch is chained. -/
theorem Tie.editAll_without : editAll l (pre ++ a :: post) = splice l (pre ++ a :: post) := by
  have hlt := h.start_lt_stop
  have hs := h.inside
  apply editAll_eq_splice
  · rw [Chained, pairwise_append, pairwise_cons]
    refine ⟨h.pre_chained, ⟨h.post_start, h.post_chained⟩, ?_⟩
    intro e he f hf
    have hfirst := h.pre_stop e he
    rcases mem_cons.mp hf with rfl | hf
    · exact hfirst
    · have := h.post_start f hf
      omega
  · intro e he
    rcases mem_append.mp he with he | he
    · have := h.pre_stop e he
      omega
    · rcases mem_cons.mp he with rfl | he
      · exact hs
      · exact h.post_inside e he

theorem Tie.splice_front :
    (List.range a.start).flatMap (cell l (pre ++ a :: post)) ++ cell l (pre ++ a :: post) a.start =
      editAll (l.take a.start) pre ++ a.segment := by
  have hlt := h.start_lt_stop
  have hstop := h.inside
  have he := h.without.editAll_eq
  have hs := splice_split l (pre ++ a :: post) (k := a.start) (by omega)
  rw [h.spliceFrom_succ, ← h.editAll_without, ← append_assoc] at hs
  refine append_cancel_right (hs.symm.trans ?_)
  simpa using he

theorem Tie.splice_eq : splice l (pre ++ a :: bs ++ post) = editAll (l.take a.start) pre ++ (a.segment ++
      (bs.flatMap Edit.segment ++ spliceFrom l post a.stop)) := by
  have hlt := h.start_lt_stop
  have hs := h.inside
  have hl : (List.range a.start).flatMap (cell l (pre ++ a :: bs ++ post)) =
      (List.range a.start).flatMap (cell l (pre ++ a :: post)) := by
    rw [flatMap_def, flatMap_def]
    congr 1
    apply map_congr_left
    intro i hi
    exact h.cell_of_ne (by have := mem_range.mp hi; omega)
  have hh : spliceFrom l (pre ++ a :: bs ++ post) (a.start + 1) = spliceFrom l post a.stop := by
    rw [← h.spliceFrom_succ]
    exact spliceFrom_congr fun i hi => h.cell_of_ne (by omega)
  rw [splice_split l (pre ++ a :: bs ++ post) (k := a.start) (by omega), hl, h.cell_start, hh,
    append_assoc, ← append_assoc _ (cell l (pre ++ a :: post) a.start), h.splice_front]
  simp

/-- The outcome is the splice only if removing the region's length from the inserted lines followed
by the region gives back the inserted lines. -/
theorem editAll_eq_splice_iff_of_tie :
    editAll l (pre ++ a :: bs ++ post) = splice l (pre ++ a :: bs ++ post) ↔
      (bs.flatMap Edit.segment ++ (l.drop a.start).take a.oldLen).drop a.oldLen = bs.flatMap Edit.segment := by
  rw [h.editAll_eq, h.splice_eq, append_cancel_left_eq, append_cancel_left_eq, append_cancel_right_eq]

end

end Ties

/-! ## Sorting a batch -/

/-- The stable sort by start that batches of edits go through. -/
def sortByStart (es : List (Edit α)) : List (Edit α) := es.insertionSort fun a b => a.start ≤ b.start

theorem sortByStart_perm : (sortByStart es).Perm es := perm_insertionSort _ _

theorem orderedInsert_filter (e : Edit α) (es : List (Edit α)) (k : Nat)
    (hs : es.Pairwise fun a b => a.start ≤ b.start) :
    (es.orderedInsert (fun a b => a.start ≤ b.start) e).filter (·.start == k) = (e :: es).filter (·.start == k) := by
  induction es with
  | nil => rfl
  | cons f es ih =>
    obtain ⟨hf, hes⟩ := pairwise_cons.mp hs
    rw [List.orderedInsert]
    split
    · rfl
    · rw [filter_cons, ih hes]
      by_cases he : e.start = k
      · have hfk : f.start ≠ k := by omega
        simp [he, hfk]
      · simp [filter_cons, he]

theorem sortByStart_sorted (es : List (Edit α)) : (sortByStart es).Pairwise fun a b => a.start ≤ b.start := by
  exact pairwise_insertionSort _ _

/-- Stability: edits with one start keep their order. -/
theorem sortByStart_filter (es : List (Edit α)) (k : Nat) :
    (sortByStart es).filter (·.start == k) = es.filter (·.start == k) := by
  induction es with
  | nil => rfl
  | cons e es ih =>
    have h := orderedInsert_filter e (sortByStart es) k (sortByStart_sorted es)
    have hc : sortByStart (e :: es) = (sortByStart es).orderedInsert (fun a b => a.start ≤ b.start) e := rfl
    rw [hc, h, filter_cons, filter_cons, ih]

/-- A relation that only speaks about edits with one start can be checked start
by start. -/
theorem pairwise_sameStart_iff :
    es.Pairwise (fun a b => a.start = b.start → Q a b) ↔ ∀ k, (es.filter (·.start == k)).Pairwise Q := by
  constructor
  · intro h k
    refine (h.filter _).imp_of_mem ?_
    intro a b ha hb hab
    have h₁ := (mem_filter.mp ha).2
    have h₂ := (mem_filter.mp hb).2
    simp only [beq_iff_eq] at h₁ h₂
    exact hab (h₁.trans h₂.symm)
  · intro h
    induction es with
    | nil => simp
    | cons e es ih =>
      rw [pairwise_cons]
      refine ⟨?_, ih fun k => (h k).sublist ((sublist_cons_self e es).filter _)⟩
      intro f hf he
      have hk := h e.start
      rw [filter_cons_of_pos (by simp), pairwise_cons] at hk
      exact hk.1 f (mem_filter.mpr ⟨hf, by simp [he]⟩)

/-- Sorted edits that lie apart are chained, unless a region is followed by an
insertion at its own start. -/
theorem chained_of_apart (hs : es.Pairwise fun a b => a.start ≤ b.start)
    (ha : es.Pairwise Apart) (ht : es.Pairwise fun a b => a.start = b.start → a.oldLen = 0) :
    Chained es := by
  have h := (hs.and ha).and ht
  refine h.imp ?_
  rintro a b ⟨⟨hle, hab⟩, htie⟩
  by_cases h0 : a.oldLen = 0
  · rw [Edit.stop_eq_start h0]
    exact hle
  · have h₁ := hab.1 (by omega)
    have h₃ := hab.2.2
    simp only [Edit.stop] at h₁ h₃ ⊢
    by_cases hb : b.oldLen = 0
    · omega
    · omega

/-- A list sorted by start splits at any start. -/
theorem sorted_split (k : Nat) (hs : es.Pairwise fun a b => a.start ≤ b.start) :
    es = es.filter (·.start < k) ++ es.filter (·.start == k) ++ es.filter (k < ·.start) := by
  induction es with
  | nil => rfl
  | cons e es ih =>
    obtain ⟨he, hes⟩ := pairwise_cons.mp hs
    have hnone : ∀ n, n ≤ e.start → es.filter (·.start < n) = [] := by
      intro n hn
      rw [filter_eq_nil_iff]
      intro f hf
      have := he f hf
      simp only [decide_eq_true_eq]
      omega
    cases Nat.lt_trichotomy e.start k with
    | inl hlt =>
      have h₁ : ¬ e.start = k := by omega
      have h₂ : ¬ k < e.start := by omega
      conv_lhs => rw [ih hes]
      simp [hlt, h₁, h₂]
    | inr hge =>
      cases hge with
      | inl heq =>
        conv_lhs => rw [ih hes]
        simp [heq, hnone k (by omega)]
      | inr hg =>
        have h₁ : ¬ e.start = k := by omega
        have h₂ : ¬ e.start < k := by omega
        have h₃ : es.filter (·.start == k) = [] := by
          rw [filter_eq_nil_iff]
          intro f hf
          have := he f hf
          simp only [beq_iff_eq]
          omega
        conv_lhs => rw [ih hes]
        simp [hg, h₁, h₂, h₃, hnone k (by omega)]

end ListSplice
