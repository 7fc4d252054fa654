import Ycode.DeletionSteps

/-!
# Runs of deletions, forks and moves

Forks, walks and new calls keep the invariant as well, so it holds after every run. A fork holds a lease on its source
only; its base may be further back, but then it is continued from outside, and the scan meets that reference.
-/
namespace DeletionRuns

open ThreadDeletion DeletionSafety DeletionSteps
open List hiding after

variable {θ : Type} [DecidableEq θ] {state : State θ} {index : Nat} {world : World θ}

theorem chainSound_append (h : CallSound world (.fork source (.resolving chain thread)))
    (hhas : world.has thread = true) : ChainSound world source (chain ++ [thread]) := by
  obtain ⟨hc, hf, hl⟩ := h
  refine ⟨?_, ?_, ?_⟩
  · intro first hh
    cases chain with
    | nil => exact (Option.some.inj hh).symm.trans (hf rfl)
    | cons head rest => exact hc.first first hh
  · intro x ho
    rcases mem_append.mp ho with ho | ho
    · exact hc.present x ho
    · rw [mem_singleton.mp ho]
      exact hhas
  · refine isChain_append.mpr ⟨hc.linked, isChain_singleton _, fun last hm next hn => ?_⟩
    rw [← Option.some.inj hn]
    exact hl last hm

/-- The next operation of a fork. -/
theorem inv_advanceFork (h : Inv state) (hcall : state.calls[index]? = some (.fork source stage))
    (ha : ThreadDeletion.advanceFork state.world (state.calls.eraseIdx index) source stage = some reached) :
    Inv ⟨state.world, state.calls.set index (.fork source reached)⟩ := by
  have hs := h.sound index _ hcall
  cases stage with
  | waiting =>
    rw [ThreadDeletion.advanceFork] at ha
    split at ha
    · cases ha
    · rename_i hf
      cases ha
      refine h.stay hcall ⟨by rintro _ ⟨⟩, fun t hh => .inr fun j x hj ho => ?_⟩
        ⟨⟨by rintro _ ⟨⟩, by rintro _ ⟨⟩, .nil⟩, fun _ => rfl, by rintro _ ⟨⟩⟩ (fun _ _ _ hn => by cases hn)
      have he : t = source := by simpa [Call.holdsLifecycle, Call.holdsExclusive, Call.holdsShared] using hh
      rw [he]
      exact free_of_eraseIdx (Bool.eq_false_iff.mpr hf) hj ho
  | resolving chain t =>
    rw [ThreadDeletion.advanceFork] at ha
    split at ha
    · cases ha
      exact h.stay hcall ⟨by rintro _ ⟨⟩, by rintro _ ⟨⟩⟩ trivial (fun _ _ _ hn => by cases hn)
    · split at ha
      · cases ha
      · split at ha
        · cases ha
          exact h.stay hcall ⟨by rintro _ ⟨⟩, by rintro _ ⟨⟩⟩ trivial (fun _ _ _ hn => by cases hn)
        · rename_i hhas
          have hc := chainSound_append hs (by simpa using hhas)
          split at ha
          · cases ha
            exact h.stay hcall ⟨by rintro _ ⟨⟩, fun _ hh => .inl hh⟩ hc (fun _ _ _ hn => by cases hn)
          · rename_i base hb
            cases ha
            refine h.stay hcall ⟨by rintro _ ⟨⟩, fun _ hh => .inl hh⟩ ⟨hc, by simp, fun last hl => ?_⟩
              (fun _ _ _ hn => by cases hn)
            rw [getLast?_concat, Option.some.injEq] at hl
            rw [← hl, hb]
  | _ => cases ha

/-- The child of a fork is written. -/
theorem inv_create (h : Inv state)
    (hcall : state.calls[index]? = some (.fork source (.prepared chain))) (hf : state.world.has child = false)
    (hn : state.calls.any (·.names child) = false) (hb : ∀ inner, base = some inner → inner ∈ chain) :
    Inv ⟨state.world.create child base, state.calls.set index (.fork source .created)⟩ := by
  have hc : ChainSound state.world source chain := h.sound index _ hcall
  rw [any_eq_false] at hn
  refine h.replace hcall h.stamped.add ⟨fun _ => nofun, fun _ hheld => .inl hheld⟩ ?_ trivial ?_
  · intro j x hj ho
    refine (h.sound j x ho).create hf (Bool.eq_false_iff.mpr (hn x (mem_of_getElem? ho))) ?_
    -- the source is reserved, so a base that is being deleted is continued from outside on the way to it
    rintro req sg removed rfl hh inner hi he
    have hs : source ∉ req.threads := by
      intro hm
      have hfree := h.locks j index _ _ source hj ho hcall (hh source hm)
      simp [Call.holdsLifecycle, Call.holdsShared] at hfree
    obtain ⟨reference, hreference, hu⟩ := exists_outside hc.linked
      (fun first hfirst => hc.first first hfirst ▸ hs) (hb inner he) hi
    exact ⟨reference, hc.present reference hreference, hu⟩
  · intro x inner ho hi
    rcases has_create.mp ho with rfl | hhas
    · rw [base_create_self] at hi
      exact .inl (has_create.mpr (.inr (hc.present inner (hb inner hi))))
    · rw [base_create_of_ne (ne_of_has hf hhas)] at hi
      rcases h.kept x inner hhas hi with hhas | ⟨j, call, hc', hr⟩
      · exact .inl (has_create.mpr (.inr hhas))
      · refine .inr (.inr ⟨j, call, ?_, hc', hr⟩)
        rintro rfl
        cases hcall.symm.trans hc'
        exact hr

/-- A walk returns an entry. -/
theorem inv_visit (h : Inv state) (hc : state.calls[index]? = some (.exclusive request (.scanning scan) removed)) :
    Inv ⟨state.world, state.calls.set index
      (.exclusive request (.scanning (scan.visit state.world.base thread)) removed)⟩ := by
  obtain ⟨hd, hsound⟩ := h.sound index _ hc
  refine h.stay_exclusive hc (fun _ hh => hh) ⟨hd, ?_⟩ (fun _ _ _ => nofun)
  unfold Scan.visit
  split
  · exact hsound
  · refine ⟨fun e he => ?_, fun hx => ?_⟩
    · rcases mem_append.mp he with he | he
      · exact hsound.index e he
      · rw [mem_singleton.mp he]
    · obtain ⟨ch, ho, ht⟩ := hsound.meets hx
      refine ⟨ch, ho, ht.imp_left fun hs => ?_⟩
      rw [Scan.seen, any_append, Bool.or_eq_true]
      exact .inl hs

/-- A call begins, without any lock. -/
theorem inv_begin (h : Inv state) (hh : ∀ t, call.holdsLifecycle t = false)
    (hs : CallSound state.world call) : Inv { state with calls := state.calls ++ [call] } := by
  have hc : ∀ (i : Nat) (found : Call θ), (state.calls ++ [call])[i]? = some found →
      state.calls[i]? = some found ∨ found = call := by
    intro i found hf
    rcases Nat.lt_or_ge i state.calls.length with hlt | hg
    · exact .inl (by rwa [getElem?_append_left hlt] at hf)
    · rw [getElem?_append_right hg] at hf
      exact .inr (mem_singleton.mp (mem_of_getElem? hf))
  refine ⟨h.stamped, ?_, ?_, ?_⟩
  · intro i j one x t hne hone ho hheld
    rcases hc i one hone with hone | rfl
    · rcases hc j x ho with ho | rfl
      · exact h.locks i j one x t hne hone ho hheld
      · exact hh t
    · have hn := hh t
      simp [Call.holdsLifecycle, hheld] at hn
  · intro i found hf
    rcases hc i found hf with hf | rfl
    · exact h.sound i found hf
    · exact hs
  · intro ch base hchild hb
    rcases h.kept ch base hchild hb with hhas | ⟨i, found, hf, hr⟩
    · exact .inl hhas
    · exact .inr ⟨i, found, by rw [getElem?_append_left (List.getElem?_eq_some_iff.mp hf).1]; exact hf, hr⟩

theorem inv_next (h : Inv state)
    (hn : ThreadDeletion.next state action = some after) (hu : undisturbed state action = true) :
    Inv after := by
  cases action with
  | request request =>
    cases hn
    refine inv_begin h (fun t => ?_) ?_
    · rw [holdsLifecycle_exclusive, firstStage]
      split <;> simp [Call.holdsExclusive]
    · rw [firstStage]
      split <;> trivial
  | requestFork src =>
    cases hn
    exact inv_begin h (fun t => rfl) trivial
  | proceed index =>
    rw [ThreadDeletion.next] at hn
    split at hn
    · rename_i request sg removed hc
      obtain ⟨res, ha, rfl⟩ := Option.map_eq_some_iff.mp hn
      exact h.advance hc ha hu
    · rename_i src sg hc
      obtain ⟨res, ha, rfl⟩ := Option.map_eq_some_iff.mp hn
      exact inv_advanceFork h hc ha
    · cases hn
  | visit index t =>
    rw [ThreadDeletion.next] at hn
    split at hn
    · rename_i request scan removed hc
      split at hn
      · cases hn
        exact inv_visit h hc
      · cases hn
    · cases hn
  | create index ch base =>
    rw [ThreadDeletion.next] at hn
    split at hn
    · rename_i src chain hc
      split at hn
      · rename_i hf
        cases hn
        simp only [Bool.and_eq_true, Bool.not_eq_true'] at hf
        refine inv_create h hc hf.1.1 hf.1.2 fun inner he => ?_
        have hall := hf.2
        rw [he, Option.all_some, decide_eq_true_eq] at hall
        exact hall
      · cases hn
    · cases hn
  | drop index =>
    rw [ThreadDeletion.next] at hn
    split at hn
    · rename_i src sg hc
      split at hn
      · cases hn
      · cases hn
        refine h.stay hc ⟨by rintro _ ⟨⟩, by rintro _ ⟨⟩⟩ trivial fun ch base _ hr => ?_
        cases sg <;> exact hr
    · cases hn

theorem inv_run (h : Inv state) {after : State θ}
    (hr : ThreadDeletion.run state acts = some after) (hu : runUndisturbed state acts = true) :
    Inv after := by
  induction acts generalizing state with
  | nil =>
    cases hr
    exact h
  | cons a acts ih =>
    obtain ⟨mid, hn, hrest⟩ := Option.bind_eq_some_iff.mp hr
    rw [runUndisturbed, hn, Option.all_some, Bool.and_eq_true] at hu
    exact ih (inv_next h hn hu.1) hrest hu.2

theorem inv_initial {rollouts : List (θ × Place)}
    (hg : Grounded (initial base rollouts).world) : Inv (initial base rollouts) where
  stamped file hf := by
    obtain ⟨rollout, _, rfl⟩ := mem_map.mp hf
    exact Nat.zero_lt_one
  locks _ _ _ _ _ _ ho := nomatch ho
  sound _ _ hcall := nomatch hcall
  kept child inner hc hi := .inl (hg child inner hc hi)

/-- Only deletions that go on remove bases. -/
theorem grounded_of_inv (h : Inv state) (hq : ∀ call ∈ state.calls, call.isDeleting = false) :
    Grounded state.world := by
  intro ch base hc hb
  rcases h.kept ch base hc hb with hh | ⟨i, call, hcall, hr⟩
  · exact hh
  · have hd := hq call (mem_of_getElem? hcall)
    cases call with
    | fork src sg => cases sg <;> cases hr
    | exclusive req sg removed =>
      cases sg with
      | locating rem => simp [Call.isDeleting, hr.1] at hd
      | acting t places rem => simp [Call.isDeleting, hr.1] at hd
      | _ => cases hr

/-- A call that has not come to its rollouts has removed nothing. -/
def Untouched : Call θ → Prop
  | .exclusive _ (.locating _) _ => True
  | .exclusive _ (.acting _ _ _) _ => True
  | .exclusive _ .finished _ => True
  | .exclusive _ _ removed => removed = []
  | .fork _ _ => True

theorem untouched_advance (h : Untouched (.exclusive request stage removed))
    (ha : advance world others request stage = some result) :
    Untouched (.exclusive request result.2 (removedBy request stage removed)) := by
  cases stage with
  | locking rem =>
    cases rem with
    | nil => cases request <;> cases ha <;> first | exact h | trivial
    | cons t rem =>
      rw [advance] at ha
      split at ha
      · cases ha
      · cases ha
        exact h
  | lockingWriters rem =>
    cases rem with
    | nil =>
      rw [advance] at ha
      split at ha
      · cases ha
        exact h
      · cases ha
        trivial
    | cons t rem =>
      rw [advance] at ha
      split at ha
      · cases ha
      · cases ha
        exact h
  | scanning scan =>
    rw [advance] at ha
    split at ha
    · split at ha
      · cases ha
        exact h
      · cases ha
        by_cases hl : request.isAllowed scan.index = true
        · rw [if_pos hl]
          trivial
        · rw [if_neg hl]
          exact h
    · cases ha
  | locating rem =>
    cases rem with
    | nil =>
      cases ha
      trivial
    | cons t rem =>
      rw [advance] at ha
      split at ha <;> cases ha <;> trivial
  | acting t places rem => cases places <;> cases ha <;> trivial
  | _ => cases ha

theorem untouched_next (h : ∀ call ∈ state.calls, Untouched call) (hn : next state action = some after) :
    ∀ call ∈ after.calls, Untouched call := by
  have hs : ∀ {index : Nat} {changed : Call θ}, Untouched changed →
      ∀ call ∈ state.calls.set index changed, Untouched call := by
    intro index changed hc call hcall
    rcases mem_or_eq_of_mem_set hcall with hcall | rfl
    · exact h call hcall
    · exact hc
  have ha : ∀ {begun : Call θ}, Untouched begun → ∀ call ∈ state.calls ++ [begun], Untouched call := by
    intro begun hb call hcall
    rcases mem_append.mp hcall with hcall | hcall
    · exact h call hcall
    · rw [mem_singleton.mp hcall]
      exact hb
  cases action with
  | request request =>
    cases hn
    refine ha ?_
    rw [firstStage]
    split
    · trivial
    · rfl
  | requestFork src =>
    cases hn
    exact ha trivial
  | proceed index =>
    rw [ThreadDeletion.next] at hn
    split at hn
    · rename_i request sg removed hcall
      obtain ⟨res, hd, rfl⟩ := Option.map_eq_some_iff.mp hn
      exact hs (untouched_advance (h _ (mem_of_getElem? hcall)) hd)
    · obtain ⟨res, _, rfl⟩ := Option.map_eq_some_iff.mp hn
      exact hs trivial
    · cases hn
  | visit index t =>
    rw [ThreadDeletion.next] at hn
    split at hn
    · rename_i request scan removed hcall
      split at hn
      · cases hn
        have hu := h _ (mem_of_getElem? hcall)
        exact hs hu
      · cases hn
    · cases hn
  | create index ch base =>
    rw [ThreadDeletion.next] at hn
    split at hn
    · split at hn
      · cases hn
        exact hs trivial
      · cases hn
    · cases hn
  | drop index =>
    rw [ThreadDeletion.next] at hn
    split at hn
    · split at hn
      · cases hn
      · cases hn
        exact hs trivial
    · cases hn

theorem untouched_run {after : State θ} (h : ∀ call ∈ state.calls, Untouched call)
    (hr : run state acts = some after) : ∀ call ∈ after.calls, Untouched call := by
  induction acts generalizing state with
  | nil =>
    cases hr
    exact h
  | cons a acts ih =>
    obtain ⟨mid, hn, hrest⟩ := Option.bind_eq_some_iff.mp hr
    exact ih (untouched_next h hn) hrest

/-- When no rollout is taken away that a scan has yet to meet, every base is there whenever all deletions have
returned; and a deletion that is refused has removed nothing. -/
theorem bases_outlive_deletions {base : θ → Option θ} {rollouts : List (θ × Place)}
    (hgrounded : Grounded (initial base rollouts).world) {actions : List (Action θ)} {state : State θ}
    (hrun : run (initial base rollouts) actions = some state) :
    (runUndisturbed (initial base rollouts) actions = true → (∀ call ∈ state.calls, call.isDeleting = false) →
      Grounded state.world) ∧
    ∀ request removed, .exclusive request .refused removed ∈ state.calls → removed = [] := by
  refine ⟨fun hu hq => grounded_of_inv (inv_run (inv_initial hgrounded) hrun hu) hq, ?_⟩
  intro request removed hc
  exact untouched_run (by simp [initial]) hrun _ hc

/-- Thread 1 continues thread 0. -/
def oneContinuesZero (thread : Nat) : Option Nat := if thread = 1 then some 0 else none

/-- Thread 0 is active, thread 1 archived. -/
def activeAndArchived : State Nat := initial oneContinuesZero [(0, .sessions), (1, .archived)]

theorem grounded_activeAndArchived : Grounded activeAndArchived.world := by
  intro t base _ hb
  change (if t = 1 then some 0 else none) = some base at hb
  split at hb
  · cases hb
    decide
  · cases hb

/-- The deletion of thread 0 is refused; then thread 1 is unarchived. -/
def unarchiveAfterScan : List (Action Nat) :=
  .request (.deleteThread 0) :: List.replicate 4 (.proceed 0) ++ [.visit 0 0, .proceed 0, .visit 0 1, .proceed 0] ++
    .request (.unarchiveThread 1) :: List.replicate 6 (.proceed 1)

theorem refused_deletion_keeps_base : ∃ state, run activeAndArchived unarchiveAfterScan = some state ∧
    Grounded state.world ∧ ∀ request removed, .exclusive request .refused removed ∈ state.calls → removed = [] := by
  have hruns : ((run activeAndArchived unarchiveAfterScan).any fun state =>
      runUndisturbed activeAndArchived unarchiveAfterScan && state.calls.all (!·.isDeleting)) = true := by decide
  rw [Option.any_eq_true] at hruns
  obtain ⟨state, hrun, hp⟩ := hruns
  rw [Bool.and_eq_true, all_eq_true] at hp
  obtain ⟨hg, hr⟩ := bases_outlive_deletions grounded_activeAndArchived hrun
  exact ⟨state, hrun, hg hp.1 fun call hc => by simpa using hp.2 call hc, hr⟩

/-- Thread 1 is unarchived between the two walks of the deletion of thread 0. -/
def unarchiveDuringScan : List (Action Nat) :=
  .request (.deleteThread 0) :: List.replicate 4 (.proceed 0) ++ .visit 0 0 :: .request (.unarchiveThread 1) ::
    List.replicate 6 (.proceed 1) ++ List.replicate 6 (.proceed 0)

theorem unarchived_reference_is_missed : Grounded activeAndArchived.world ∧
    ∃ state, run activeAndArchived unarchiveDuringScan = some state ∧
      (∀ call ∈ state.calls, call.isDeleting = false) ∧ ¬Grounded state.world := by
  have hr : ((run activeAndArchived unarchiveDuringScan).any fun state => state.calls.all (!·.isDeleting) &&
      state.world.has 1 && state.world.base 1 == some 0 && !state.world.has 0) = true := by decide
  rw [Option.any_eq_true] at hr
  obtain ⟨state, hrun, hp⟩ := hr
  simp only [Bool.and_eq_true, all_eq_true, Bool.not_eq_true', beq_iff_eq] at hp
  obtain ⟨⟨⟨hq, hc⟩, hb⟩, hgone⟩ := hp
  refine ⟨grounded_activeAndArchived, state, hrun, hq, fun hg => ?_⟩
  cases (hg 1 0 hc hb).symm.trans hgone

-- A fork of thread 1 that continues thread 0 is not met either, when thread 1 is deleted before the scan comes to it.
example : ((run activeAndArchived (.requestFork 1 :: List.replicate 3 (.proceed 0) ++
    .request (.deleteThread 0) :: List.replicate 4 (.proceed 1) ++ [.visit 1 0, .create 0 2 (some 0), .drop 0] ++
    .request (.deleteThread 1) :: List.replicate 4 (.proceed 2) ++ [.visit 2 0, .visit 2 2, .proceed 2, .visit 2 1] ++
    List.replicate 5 (.proceed 2) ++ List.replicate 6 (.proceed 1))).any fun state =>
      state.world.has 2 && state.world.base 2 == some 0 && !state.world.has 0) = true := by decide

end DeletionRuns
