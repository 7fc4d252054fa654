import Ycode.DeletionSafety

/-!
# Operations of archive, unarchive and delete calls

One operation after the other keeps the invariant: the locks exclude each other, every call is where it should be, and
a rollout whose base is gone is about to be removed as well.
-/
namespace DeletionSteps

open ThreadDeletion DeletionSafety List

/-- The elements of a list after one of them has changed. -/
theorem getElem?_set_cases {calls : List α} {i j : Nat} {changed found : α}
    (h : (calls.set i changed)[j]? = some found) : (j = i ∧ found = changed) ∨ (j ≠ i ∧ calls[j]? = some found) := by
  rw [getElem?_set] at h
  split at h
  · rename_i he
    split at h
    · exact .inl ⟨he.symm, (Option.some.inj h).symm⟩
    · cases h
  · rename_i hne
    exact .inr ⟨fun he => hne he.symm, h⟩

theorem free_of_eraseIdx {calls : List α} {index : Nat} {p : α → Bool}
    (h : (calls.eraseIdx index).any p = false) {j : Nat} {x : α} (hj : j ≠ index) (ho : calls[j]? = some x) :
    p x = false := by
  rw [any_eq_false] at h
  exact Bool.eq_false_iff.mpr (h x (mem_eraseIdx_iff_getElem?.mpr ⟨j, hj, ho⟩))

variable {θ : Type} [DecidableEq θ]

/-- The deletion removes the base, and the child that continues it later. -/
def Removing (child base : θ) : Call θ → Prop
  | .exclusive request (.locating remaining) _ =>
    request.isDelete = true ∧ base ∈ request.threads ∧ child ∈ remaining
  | .exclusive request (.acting thread _ remaining) _ =>
    request.isDelete = true ∧ base ∈ request.threads ∧ child ∈ thread :: remaining
  | _ => False

structure Inv (state : State θ) : Prop where
  stamped : Stamped state.world
  locks : ∀ (i j : Nat) (one other : Call θ) (thread : θ), i ≠ j → state.calls[i]? = some one →
    state.calls[j]? = some other → one.holdsExclusive thread = true → other.holdsLifecycle thread = false
  sound : ∀ (i : Nat) (call : Call θ), state.calls[i]? = some call → CallSound state.world call
  kept : ∀ child base, state.world.has child = true → state.world.base child = some base →
    state.world.has base = true ∨ ∃ (i : Nat) (call : Call θ), state.calls[i]? = some call ∧ Removing child base call

variable {state : State θ} {index : Nat} {call changed : Call θ}

/-- Every lock of the changed call it had, or no other call stands against it. -/
structure Granted (state : State θ) (index : Nat) (call changed : Call θ) : Prop where
  exclusive : ∀ thread, changed.holdsExclusive thread = true → call.holdsExclusive thread = true ∨
    ∀ j other, j ≠ index → state.calls[j]? = some other → other.holdsLifecycle thread = false
  lifecycle : ∀ thread, changed.holdsLifecycle thread = true → call.holdsLifecycle thread = true ∨
    ∀ j other, j ≠ index → state.calls[j]? = some other → other.holdsExclusive thread = false

section

variable (h : Inv state) (hcall : state.calls[index]? = some call)
include h hcall

/-- A base that is gone is being removed by the call or by another one. -/
theorem Inv.keeper (hc : state.world.has child = true)
    (hb : state.world.base child = some base) : state.world.has base = true ∨ Removing child base call ∨
      ∃ j other, j ≠ index ∧ state.calls[j]? = some other ∧ Removing child base other := by
  rcases h.kept child base hc hb with hh | ⟨j, other, ho, hr⟩
  · exact .inl hh
  · by_cases hj : j = index
    · subst hj
      cases hcall.symm.trans ho
      exact .inr (.inl hr)
    · exact .inr (.inr ⟨j, other, hj, ho, hr⟩)

/-- What one operation of one call has to keep. -/
theorem Inv.replace (hs : Stamped world) (hg : Granted state index call changed)
    (ht : ∀ j x, j ≠ index → state.calls[j]? = some x → CallSound world x)
    (hc : CallSound world changed)
    (hk : ∀ ch base, world.has ch = true → world.base ch = some base → world.has base = true ∨
      Removing ch base changed ∨ ∃ j x, j ≠ index ∧ state.calls[j]? = some x ∧ Removing ch base x) :
    Inv ⟨world, state.calls.set index changed⟩ := by
  have hindex : index < state.calls.length := (List.getElem?_eq_some_iff.mp hcall).1
  refine ⟨hs, ?_, ?_, ?_⟩
  · intro i j one x thread hne hone ho hh
    rcases getElem?_set_cases hone with ⟨rfl, rfl⟩ | ⟨hi, hold⟩
    · rcases getElem?_set_cases ho with ⟨he, _⟩ | ⟨hj, ho⟩
      · exact absurd he.symm hne
      · rcases hg.exclusive thread hh with hheld | hfree
        · exact h.locks _ _ _ _ thread hne hcall ho hheld
        · exact hfree j x hj ho
    · rcases getElem?_set_cases ho with ⟨rfl, rfl⟩ | ⟨hj, ho⟩
      · by_contra hb
        rcases hg.lifecycle thread (Bool.not_eq_false _ ▸ hb) with hheld | hfree
        · cases hheld.symm.trans (h.locks _ _ _ _ thread hne hold hcall hh)
        · cases hh.symm.trans (hfree i one hi hold)
      · exact h.locks _ _ _ _ thread hne hold ho hh
  · intro i found hf
    rcases getElem?_set_cases hf with ⟨rfl, rfl⟩ | ⟨hi, hf⟩
    · exact hc
    · exact ht i found hi hf
  · intro ch base hchild hbase
    rcases hk ch base hchild hbase with hhas | hr | ⟨j, x, hj, ho, hr⟩
    · exact .inl hhas
    · exact .inr ⟨index, changed, by simp [hindex], hr⟩
    · refine .inr ⟨j, x, ?_, hr⟩
      rw [getElem?_set_ne (Ne.symm hj)]
      exact ho

/-- An operation that leaves the files alone. -/
theorem Inv.stay (hg : Granted state index call changed) (hh : CallSound state.world changed)
    (hr : ∀ ch base, state.world.has ch = true → Removing ch base call → Removing ch base changed) :
    Inv ⟨state.world, state.calls.set index changed⟩ := by
  refine h.replace hcall h.stamped hg (fun j x _ ho => h.sound j x ho) hh ?_
  intro ch base hc hb
  exact (h.keeper hcall hc hb).imp_right (.imp_left (hr ch base hc))

end

section Exclusive

variable {request : Request θ} {removed removed' : List (θ × Place)}

theorem holdsLifecycle_exclusive : (Call.exclusive request stage removed).holdsLifecycle thread =
    (Call.exclusive request stage removed).holdsExclusive thread := by
  simp [Call.holdsLifecycle, Call.holdsShared]

theorem Granted.of_exclusive (hh : ∀ thread, (Call.exclusive request reached removed').holdsExclusive thread = true →
      (Call.exclusive request stage removed).holdsExclusive thread = true ∨
        ∀ j x, j ≠ index → state.calls[j]? = some x → x.holdsLifecycle thread = false) :
    Granted state index (.exclusive request stage removed) (.exclusive request reached removed') := by
  refine ⟨hh, fun thread hheld => ?_⟩
  rw [holdsLifecycle_exclusive] at hheld ⊢
  refine (hh thread hheld).imp_right fun hf j x hj ho => ?_
  have hn := hf j x hj ho
  simp only [Call.holdsLifecycle, Bool.or_eq_false_iff] at hn
  exact hn.1

/-- An archive, unarchive or delete call that takes no further lock and leaves the files alone. -/
theorem Inv.stay_exclusive (h : Inv state) (hcall : state.calls[index]? = some (.exclusive request stage removed))
    (hh : ∀ thread, (Call.exclusive request reached removed').holdsExclusive thread = true →
      (Call.exclusive request stage removed).holdsExclusive thread = true)
    (hc : CallSound state.world (.exclusive request reached removed'))
    (hr : ∀ ch base, state.world.has ch = true → Removing ch base (.exclusive request stage removed) →
      Removing ch base (.exclusive request reached removed')) :
    Inv ⟨state.world, state.calls.set index (.exclusive request reached removed')⟩ := by
  exact h.stay hcall (.of_exclusive fun thread hheld => .inl (hh thread hheld)) hc hr

/-- A lifecycle lock is taken. -/
theorem Inv.lock (h : Inv state) {remaining : List θ}
    (hcall : state.calls[index]? = some (.exclusive request (.locking (thread :: remaining)) removed))
    (hf : (state.calls.eraseIdx index).any (·.holdsLifecycle thread) = false) :
    Inv ⟨state.world, state.calls.set index (.exclusive request (.locking remaining) removed)⟩ := by
  have hc : ∀ other, (Call.exclusive request (.locking remaining) removed).holdsExclusive other = true →
      (Call.exclusive request (.locking (thread :: remaining)) removed).holdsExclusive other = true ∨
        other = thread := by
    intro other hh
    simp only [Call.holdsExclusive, Bool.and_eq_true, decide_eq_true_eq] at hh ⊢
    by_cases he : other = thread
    · exact .inr he
    · exact .inl ⟨hh.1, by simp [he, hh.2]⟩
  refine h.stay hcall (.of_exclusive fun other hh => ?_) trivial (fun _ _ _ hr => hr)
  rcases hc other hh with hh | rfl
  · exact .inl hh
  · exact .inr fun j call hj ho => free_of_eraseIdx hf hj ho

/-- The walk of the active rollouts begins with all references still to be met. -/
theorem scanSound_start (hs : Stamped state.world) :
    ScanSound state.world threads ⟨.sessions, state.world.clock, []⟩ := by
  refine ⟨nofun, fun ⟨child, hc, ho⟩ => ⟨child, ho, .inr ?_⟩⟩
  obtain ⟨file, hf, rfl⟩ := has_iff.mp hc
  refine ⟨file, hf, rfl, ?_⟩
  cases hp : file.place with
  | sessions => exact .inl ⟨rfl, hs file hf⟩
  | archived => exact .inr ⟨rfl, rfl⟩

theorem seen_of_complete {scan : Scan θ} (hc : scan.complete state.world.files = true) {file : File θ}
    (hf : file ∈ state.world.files) (hp : file.place = scan.place) (hs : file.since < scan.since) :
    scan.seen file.thread = true := by
  rw [Scan.complete, all_eq_true] at hc
  simpa [hp, hs] using hc file hf

/-- After the active rollouts the archived ones are still to be met. -/
theorem scanSound_archived (hs : Stamped state.world)
    (h : ScanSound state.world threads scan) (hc : scan.complete state.world.files = true) :
    ScanSound state.world threads ⟨.archived, state.world.clock, scan.index⟩ := by
  refine ⟨h.index, fun he => ?_⟩
  obtain ⟨ch, ho, ht⟩ := h.meets he
  refine ⟨ch, ho, ?_⟩
  rcases ht with hseen | ⟨file, hf, rfl, ⟨hat, hsince⟩ | ⟨_, ha⟩⟩
  · exact .inl hseen
  · exact .inl (seen_of_complete hc hf hat hsince)
  · exact .inr ⟨file, hf, rfl, .inl ⟨ha, hs file hf⟩⟩

/-- A deletion that is allowed after both walks removes nothing that is continued from outside. -/
theorem removalSound_of_isAllowed (hd : request.isDelete = true)
    (h : ScanSound state.world request.threads scan) (hp : scan.place = .archived)
    (hc : scan.complete state.world.files = true) (ha : request.isAllowed scan.index = true) :
    RemovalSound state.world request.threads request.threads := by
  refine ⟨fun ch hchild ho => ?_, fun _ hh _ => hh⟩
  obtain ⟨met, ⟨hout, base, hb, heq⟩, ht⟩ := h.meets ⟨ch, hchild, ho⟩
  have hseen : scan.seen met = true := by
    rcases ht with hseen | ⟨file, hf, rfl, ⟨hat, hsince⟩ | ⟨hs, _⟩⟩
    · exact hseen
    · exact seen_of_complete hc hf hat hsince
    · cases hp.symm.trans hs
  obtain ⟨e, he, hm⟩ := any_eq_true.mp hseen
  have hr := h.index e he
  rw [of_decide_eq_true hm, heq] at hr
  have hi : (met, some base) ∈ scan.index := by
    rw [← of_decide_eq_true hm, ← hr]
    exact he
  cases (not_isAllowed hd hout hb hi).symm.trans ha

variable {thread : θ} {remaining : List θ}

section

variable (h : Inv state)
  (hcall : state.calls[index]? = some (.exclusive request (.acting thread (place :: places) remaining) removed))
include h hcall

/-- While a call works on its threads, no other call has a lifecycle lock of theirs. -/
theorem Inv.holdsLifecycle_of_acting
    (hj : j ≠ index) (ho : state.calls[j]? = some other) (hh : he ∈ request.threads) :
    other.holdsLifecycle he = false :=
  h.locks index j _ other he (Ne.symm hj) hcall ho (by simp [Call.holdsExclusive, hh])

/-- No fork has read a thread that is removed. -/
theorem Inv.not_mem_chainOf (hd : request.isDelete = true) (hj : j ≠ index) (ho : state.calls[j]? = some other) :
    thread ∉ chainOf other := by
  intro hm
  have ha := h.sound index _ hcall
  have ht := ha.1 thread mem_cons_self
  have hc : ∃ src, ChainSound state.world src (chainOf other) ∧ other.holdsLifecycle src = true := by
    have hsound := h.sound j other ho
    cases other with
    | exclusive request sg removed => cases hm
    | fork src sg =>
      cases sg with
      | resolving chain next => exact ⟨src, hsound.1, by simp [Call.holdsLifecycle, Call.holdsShared]⟩
      | prepared chain => exact ⟨src, hsound, by simp [Call.holdsLifecycle, Call.holdsShared]⟩
      | _ => cases hm
  obtain ⟨src, hsound, hh⟩ := hc
  have hs : src ∉ request.threads := fun hs => by
    cases hh.symm.trans (h.holdsLifecycle_of_acting hcall hj ho hs)
  obtain ⟨ch, hchild, hu⟩ := exists_outside hsound.linked
    (fun first hf => hsound.first first hf ▸ hs) hm ht
  exact (ha.2 hd).1.alone ch (hsound.present ch hchild) hu

/-- A deletion removes a rollout that no scan waits for. -/
theorem Inv.remove (hd : request.isDelete = true) (hw : state.calls.any (·.awaits state.world thread) = false) :
    Inv ⟨state.world.remove thread place,
      state.calls.set index (.exclusive request (.acting thread places remaining) removed')⟩ := by
  have ha := h.sound index _ hcall
  obtain ⟨hr, hp⟩ := ha.2 hd
  rw [any_eq_false] at hw
  refine h.replace hcall h.stamped.remove (.of_exclusive fun x hh => .inl hh) ?_ ?_ ?_
  · intro j x hj ho
    exact (h.sound j x ho).remove (Bool.eq_false_iff.mpr (hw x (mem_of_getElem? ho)))
      (h.not_mem_chainOf hcall hd hj ho)
  · refine ⟨ha.1, fun _ => ⟨hr.remove, fun at' hat => ?_⟩⟩
    obtain ⟨hold, hg⟩ := isAt_of_remove hat
    exact (mem_cons.mp (hp at' hold)).resolve_left fun he => hg ⟨rfl, he⟩
  · intro ch base hc hb
    have hold := has_of_remove hc
    by_cases he : base = thread
    · -- whoever continues the thread is deleted with it
      subst he
      have hb' := ha.1 base mem_cons_self
      have hi : ch ∈ request.threads := by
        by_contra hout
        exact hr.alone ch hold ⟨hout, base, hb', hb⟩
      exact .inr (.inl ⟨hd, hb', hr.rest ch hi hold⟩)
    · exact (h.keeper hcall hold hb).imp_left (has_remove_of_ne he)

/-- A rollout is archived, or unarchived when no scan waits for it. -/
theorem Inv.move (hd : request.isDelete = false)
    (hs : source = .sessions ∧ target = .archived ∨ state.calls.any (·.awaits state.world thread) = false) :
    Inv ⟨state.world.rename thread source target,
      state.calls.set index (.exclusive request (.acting thread places remaining) removed')⟩ := by
  have ht := h.sound index _ hcall
  refine h.replace hcall h.stamped.rename (.of_exclusive fun x hh => .inl hh) ?_ ?_ ?_
  · intro j x hj ho
    have hf := h.holdsLifecycle_of_acting hcall hj ho (ht.1 thread mem_cons_self)
    simp only [Call.holdsLifecycle, Bool.or_eq_false_iff] at hf
    refine (h.sound j x ho).rename hf.1 (hs.imp_right fun ha => ?_)
    rw [any_eq_false] at ha
    exact Bool.eq_false_iff.mpr (ha x (mem_of_getElem? ho))
  · exact ⟨ht.1, fun hy => by cases hd.symm.trans hy⟩
  · intro ch base hc hb
    rw [base_rename] at hb
    exact (h.keeper hcall (has_rename.mp hc) hb).imp_left has_rename.mpr

/-- The operation on a rollout that was found. -/
theorem Inv.act (hu : undisturbed state (.proceed index) = true) :
    Inv ⟨request.act state.world thread place,
      state.calls.set index (.exclusive request (.acting thread places remaining) removed')⟩ := by
  simp only [undisturbed, hcall] at hu
  cases request with
  | archiveThreads threads => exact h.move hcall rfl (.inl ⟨rfl, rfl⟩)
  | unarchiveThread thread => exact h.move hcall rfl (.inr (by simpa using hu))
  | _ => exact h.remove hcall rfl (by simpa using hu)

end

/-- The next operation of a call at this stage keeps the invariant. -/
def AdvanceKeeps (state : State θ) (index : Nat) (request : Request θ) (removed : List (θ × Place)) (stage : Stage θ) :
    Prop :=
  ∀ result, state.calls[index]? = some (.exclusive request stage removed) →
    ThreadDeletion.advance state.world (state.calls.eraseIdx index) request stage = some result →
    Inv ⟨result.1, state.calls.set index (.exclusive request result.2 removed)⟩

/-- The first locks. -/
theorem Inv.advance_locking (h : Inv state) : AdvanceKeeps state index request removed (.locking remaining) := by
  intro res hcall ha
  cases remaining with
  | nil =>
    cases request with
    | unarchiveThread thread =>
      cases ha
      exact h.stay_exclusive hcall (by simp [Call.holdsExclusive])
        ⟨fun _ hm => hm, fun hn => by cases hn⟩ (fun _ _ _ hn => by cases hn)
    | _ =>
      cases ha
      exact h.stay_exclusive hcall (by simp [Call.holdsExclusive]) trivial (fun _ _ _ hn => by cases hn)
  | cons thread remaining =>
    rw [ThreadDeletion.advance] at ha
    split at ha
    · cases ha
    · rename_i hf
      cases ha
      exact h.lock hcall (Bool.eq_false_iff.mpr hf)

/-- The writer locks, and what comes after them. -/
theorem Inv.advance_lockingWriters (h : Inv state) :
    AdvanceKeeps state index request removed (.lockingWriters remaining) := by
  intro res hcall ha
  cases remaining with
  | nil =>
    rw [ThreadDeletion.advance] at ha
    split at ha
    · rename_i hd
      cases ha
      exact h.stay_exclusive hcall (by simp [Call.holdsExclusive]) ⟨hd, scanSound_start h.stamped⟩
        (fun _ _ _ hn => by cases hn)
    · rename_i hd
      cases ha
      exact h.stay_exclusive hcall (by simp [Call.holdsExclusive])
        ⟨fun _ hm => hm, fun hy => absurd hy hd⟩ (fun _ _ _ hn => by cases hn)
  | cons thread remaining =>
    rw [ThreadDeletion.advance] at ha
    split at ha
    · cases ha
    · cases ha
      exact h.stay_exclusive hcall (by simp [Call.holdsExclusive]) trivial (fun _ _ _ hn => by cases hn)

/-- The end of a walk. -/
theorem Inv.advance_scanning (h : Inv state) : AdvanceKeeps state index request removed (.scanning scan) := by
  intro res hcall ha
  have hs := h.sound index _ hcall
  rw [ThreadDeletion.advance] at ha
  split at ha
  · rename_i hc
    split at ha
    · cases ha
      exact h.stay_exclusive hcall (by simp [Call.holdsExclusive])
        ⟨hs.1, scanSound_archived h.stamped hs.2 hc⟩ (fun _ _ _ hn => by cases hn)
    · rename_i hp
      cases ha
      by_cases hallowed : request.isAllowed scan.index = true
      · rw [if_pos hallowed]
        exact h.stay_exclusive hcall (by simp [Call.holdsExclusive]) ⟨fun _ hm => hm, fun hd =>
          removalSound_of_isAllowed hd hs.2 hp hc hallowed⟩ (fun _ _ _ hn => by cases hn)
      · rw [if_neg hallowed]
        exact h.stay_exclusive hcall (by simp [Call.holdsExclusive]) trivial (fun _ _ _ hn => by cases hn)
  · cases ha

/-- The rollouts of the next thread are looked for. -/
theorem Inv.advance_locating (h : Inv state) : AdvanceKeeps state index request removed (.locating remaining) := by
  intro res hcall ha
  have hs := h.sound index _ hcall
  cases remaining with
  | nil =>
    cases ha
    exact h.stay_exclusive hcall (by simp [Call.holdsExclusive]) trivial fun _ _ _ hr => nomatch hr.2.2
  | cons thread remaining =>
    rw [ThreadDeletion.advance] at ha
    split at ha
    · rename_i hm
      cases ha
      refine h.stay_exclusive hcall (by simp [Call.holdsExclusive]) trivial fun _ _ _ hr => ?_
      simp [hr.1] at hm
    · cases ha
      refine h.stay_exclusive hcall (by simp [Call.holdsExclusive]) ⟨hs.1, fun hd => ⟨hs.2 hd, ?_⟩⟩
        fun _ _ _ hr => hr
      intro place hat
      have hp : place ∈ request.places := by
        cases request with
        | archiveThreads threads => cases hd
        | unarchiveThread thread => cases hd
        | _ => cases place <;> simp [Request.places]
      exact mem_filter.mpr ⟨hp, hat⟩

/-- All rollouts of a thread are done with. -/
theorem Inv.acted (h : Inv state)
    (hcall : state.calls[index]? = some (.exclusive request (.acting thread [] remaining) removed)) :
    Inv ⟨state.world, state.calls.set index (.exclusive request (.locating remaining) removed)⟩ := by
  have hs := h.sound index _ hcall
  have hg : request.isDelete = true → state.world.has thread = false := by
    intro hd
    by_contra hh
    obtain ⟨file, hf, he⟩ := has_iff.mp (Bool.not_eq_false _ ▸ hh)
    exact nomatch (hs.2 hd).2 file.place (isAt_iff.mpr ⟨file, hf, he, rfl⟩)
  refine h.stay_exclusive hcall (by simp [Call.holdsExclusive])
    ⟨fun x ho => hs.1 x (mem_cons_of_mem _ ho), fun hd => ?_⟩ ?_
  · refine ⟨(hs.2 hd).1.alone, fun x ho hh => ?_⟩
    exact (mem_cons.mp ((hs.2 hd).1.rest x ho hh)).resolve_left
      (ne_of_has (hg hd) hh)
  · intro ch base hc hr
    exact ⟨hr.1, hr.2.1, (mem_cons.mp hr.2.2).resolve_left
      (ne_of_has (hg hr.1) hc)⟩

/-- The next operation of an archive, unarchive or delete call. -/
theorem Inv.advance (h : Inv state) (hcall : state.calls[index]? = some (.exclusive request stage removed))
    (ha : ThreadDeletion.advance state.world (state.calls.eraseIdx index) request stage = some result)
    (hu : undisturbed state (.proceed index) = true) :
    Inv ⟨result.1, state.calls.set index (.exclusive request result.2 (removedBy request stage removed))⟩ := by
  cases stage with
  | locking remaining => exact h.advance_locking result hcall ha
  | lockingWriters remaining => exact h.advance_lockingWriters result hcall ha
  | scanning scan => exact h.advance_scanning result hcall ha
  | locating remaining => exact h.advance_locating result hcall ha
  | acting thread places remaining =>
    cases places with
    | nil =>
      cases ha
      exact h.acted hcall
    | cons place places =>
      cases ha
      exact h.act hcall hu
  | _ => cases ha

end Exclusive

end DeletionSteps
