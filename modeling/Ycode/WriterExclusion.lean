import Ycode.WriterLock

/-!
# At most one writer

The lock of the coordination file makes one call at a time the coordinator. The lock file that a call has open stays
the one under its name as long as the call needs it, because a name is removed only by a coordinator that has just
held the lock of that file.
-/
namespace WriterExclusion

open FileLocks Runs WriterLock

variable {τ : Type} {s : State τ}

/-- The coordination file is the one that every call waits for or holds. The lock file that a call has open is the
one under its name, and no call holds the lock of a file that another one is about to remove. -/
structure Inv (s : State τ) : Prop where
  disk : s.disk.WellFormed
  waits : ∀ a coordination, (s.stage a).waitsFor = some coordination →
    s.disk.directory .coordination = some coordination
  coordinates : ∀ a, (s.stage a).coordinates = true → ∃ coordination,
    s.disk.directory .coordination = some coordination ∧ s.disk.locks coordination = some ⟨a, .coordination⟩
  file : ∀ a thread file, (s.stage a).file = some (thread, file) → s.disk.directory (.thread thread) = some file
  holds : ∀ a thread file, (s.stage a).holds = some (thread, file) → s.disk.locks file = some ⟨a, .file⟩
  removes : ∀ a thread, (s.stage a).removes = some thread → ∀ b file, (s.stage b).holds ≠ some (thread, file)

theorem inv_of_initial (h : Initial s) : Inv s := by
  refine ⟨h.disk, ?_, ?_, ?_, ?_, ?_⟩
  all_goals
    intro a
    rw [h.idle a]
    simp [Stage.waitsFor, Stage.coordinates, Stage.file, Stage.holds, Stage.removes]

theorem Inv.coordinator_unique (h : Inv s) (ha : (s.stage a).coordinates = true)
    (hb : (s.stage b).coordinates = true) : a = b := by
  obtain ⟨co, hd, hl⟩ := h.coordinates a ha
  obtain ⟨x, hd', hl'⟩ := h.coordinates b hb
  rw [hd] at hd'
  cases hd'
  rw [hl] at hl'
  injection hl' with he
  injection he

/-- One call at most holds the lock of a thread. -/
theorem Inv.holder_unique (h : Inv s) {file x : Nat}
    (ha : (s.stage a).holds = some (thread, file)) (hb : (s.stage b).holds = some (thread, x)) : a = b := by
  have hf := h.file a thread file (Stage.file_of_holds ha)
  have ho := h.file b thread x (Stage.file_of_holds hb)
  rw [hf] at ho
  cases ho
  have hl := h.holds a thread file ha
  rw [h.holds b thread file hb] at hl
  injection hl with he
  injection he with he
  exact he.symm

/-- A call leaves the locks of the other calls alone and removes a name only if it was about to. -/
structure Leaves (s : State τ) (a : Nat) (disk : Disk (LockPath τ) Handle) : Prop where
  wellFormed : disk.WellFormed
  directory : ∀ name file, s.disk.directory name = some file → disk.directory name = some file ∨
    ∃ thread, name = .thread thread ∧ (s.stage a).removes = some thread
  locks : ∀ handle file, handle.actor ≠ a → s.disk.locks file = some handle → disk.locks file = some handle

/-- What a call may do in one step. A lock it takes it takes under coordination, and it is about to remove only what
it held. -/
structure Move (s : State τ) (a : Nat) (disk : Disk (LockPath τ) Handle) (stage : Stage τ) : Prop where
  leaves : Leaves s a disk
  waits : ∀ coordination, stage.waitsFor = some coordination → disk.directory .coordination = some coordination
  coordinates : stage.coordinates = true → ∃ coordination,
    disk.directory .coordination = some coordination ∧ disk.locks coordination = some ⟨a, .coordination⟩
  file : ∀ thread file, stage.file = some (thread, file) → disk.directory (.thread thread) = some file
  holds : ∀ thread file, stage.holds = some (thread, file) → disk.locks file = some ⟨a, .file⟩
  taken : ∀ held, stage.holds = some held → (s.stage a).holds = some held ∨ (s.stage a).coordinates = true
  removes : ∀ thread, stage.removes = some thread → ∃ file, (s.stage a).holds = some (thread, file)

theorem Leaves.refl (h : Inv s) (a : Nat) : Leaves s a s.disk :=
  ⟨h.disk, fun _ _ hn => .inl hn, fun _ _ _ hl => hl⟩

theorem Leaves.lock (h : Inv s) (hf : s.disk.locks file = none) : Leaves s a (s.disk.lock file handle) :=
  ⟨⟨h.disk.used, h.disk.injective⟩, fun _ _ hn => .inl hn, fun _ _ _ hl => Disk.lock_keeps hl hf⟩

theorem Leaves.close (h : Inv s) (a : Nat) (role : Role) : Leaves s a (s.disk.close ⟨a, role⟩) := by
  refine ⟨⟨h.disk.used, h.disk.injective⟩, fun _ _ hn => .inl hn, fun handle _ hne hl => ?_⟩
  refine Disk.close_keeps hl ?_
  rintro rfl
  exact hne rfl

/-- The lock of the coordination file is kept by everything but its own release. -/
theorem Leaves.keepsCoordination (hl : Leaves s a disk) (h : Inv s)
    (hlocks : ∀ file, s.disk.locks file = some ⟨a, .coordination⟩ → disk.locks file = some ⟨a, .coordination⟩)
    (hc : (s.stage a).coordinates = true) : ∃ co,
      disk.directory .coordination = some co ∧ disk.locks co = some ⟨a, .coordination⟩ := by
  obtain ⟨co, hd, hlock⟩ := h.coordinates a hc
  rcases hl.directory _ _ hd with hk | ⟨t, he, _⟩
  · exact ⟨co, hk, hlocks _ hlock⟩
  · cases he

theorem Inv.move (h : Inv s) {a : Nat} {disk : Disk (LockPath τ) Handle} {stage : Stage τ}
    (hm : Move s a disk stage) : Inv ((s.on disk).at a stage) := by
  have hs : ((s.on disk).at a stage).stage a = stage := Function.update_self ..
  have ho : ∀ b, b ≠ a → ((s.on disk).at a stage).stage b = s.stage b := fun b hb => Function.update_of_ne hb ..
  have hi : ∀ coordination, s.disk.directory .coordination = some coordination →
      disk.directory .coordination = some coordination := by
    intro coordination hd
    rcases hm.leaves.directory _ _ hd with hk | ⟨t, he, _⟩
    · exact hk
    · cases he
  refine ⟨hm.leaves.wellFormed, fun b coordination => ?_, fun b => ?_, fun b t file => ?_, fun b t file => ?_,
    fun b t => ?_⟩
  · by_cases hb : b = a
    · subst hb
      rw [hs]
      exact hm.waits coordination
    · rw [ho b hb]
      exact fun hw => hi coordination (h.waits b coordination hw)
  · by_cases hb : b = a
    · subst hb
      rw [hs]
      exact hm.coordinates
    · rw [ho b hb]
      intro hunder
      obtain ⟨coordination, hd, hl⟩ := h.coordinates b hunder
      exact ⟨coordination, hi _ hd, hm.leaves.locks ⟨b, .coordination⟩ _ hb hl⟩
  · by_cases hb : b = a
    · subst hb
      rw [hs]
      exact hm.file t file
    · rw [ho b hb]
      intro hf
      rcases hm.leaves.directory _ _ (h.file b t file hf) with hk | ⟨removed, he, hr⟩
      · exact hk
      · -- nobody has a file open whose name is about to be removed
        cases he
        rcases Stage.holds_or_coordinates hf with hh | hunder
        · exact absurd hh (h.removes a t hr b file)
        · exact absurd (h.coordinator_unique hunder (Stage.coordinates_of_removes hr).1) hb
  · by_cases hb : b = a
    · subst hb
      rw [hs]
      exact hm.holds t file
    · rw [ho b hb]
      exact fun hh => hm.leaves.locks ⟨b, .file⟩ _ hb (h.holds b t file hh)
  · intro hr c file hh
    by_cases hb : b = a
    · subst hb
      rw [hs] at hr
      obtain ⟨held, hheld⟩ := hm.removes t hr
      by_cases hc : c = b
      · subst hc
        rw [hs, (Stage.coordinates_of_removes hr).2] at hh
        cases hh
      · rw [ho c hc] at hh
        exact hc (h.holder_unique hh hheld)
    · rw [ho b hb] at hr
      by_cases hc : c = a
      · subst hc
        rw [hs] at hh
        rcases hm.taken _ hh with hold | hunder
        · exact h.removes b t hr c file hold
        · exact hb (h.coordinator_unique (Stage.coordinates_of_removes hr).1 hunder)
      · rw [ho c hc] at hh
        exact h.removes b t hr c file hh

section Steps

variable (h : Inv s)
include h

/-- A step that leaves the disk as it is and opens, locks and removes nothing. -/
theorem Inv.rest (hw : stage.waitsFor = none) (hc : stage.coordinates = true → (s.stage a).coordinates = true)
    (hf : ∀ t file, stage.file = some (t, file) → s.disk.directory (.thread t) = some file)
    (hh : stage.holds = none) (hr : stage.removes = none) : Inv (s.at a stage) := by
  have hm : Move s a s.disk stage := by
    refine ⟨Leaves.refl h a, ?_, ?_, hf, ?_, ?_, ?_⟩
    · simp [hw]
    · exact fun hs => h.coordinates a (hc hs)
    · simp [hh]
    · simp [hh]
    · simp [hr]
  exact h.move hm

/-- A call takes the lock of the coordination file that it waited for. -/
theorem Inv.coordinate {co : Nat}
    (hw : (s.stage a).waitsFor = some co) (hf : s.disk.locks co = none)
    (hs : stage.waitsFor = none) (hfile : stage.file = stage.holds) (hh : stage.holds = (s.stage a).holds)
    (hr : stage.removes = none) :
    Inv ((s.on (s.disk.lock co ⟨a, .coordination⟩)).at a stage) := by
  refine h.move ⟨Leaves.lock h hf, ?_, ?_, ?_, ?_, ?_, ?_⟩
  · simp [hs]
  · exact fun _ => ⟨co, h.waits a co hw, Disk.lock_same⟩
  · intro t file he
    rw [hfile, hh] at he
    exact h.file a t file (Stage.file_of_holds he)
  · intro t file he
    rw [hh] at he
    exact Disk.lock_keeps (h.holds a t file he) hf
  · intro held he
    rw [hh] at he
    exact .inl he
  · simp [hr]

/-- A call under coordination takes the lock of the file that it has open. -/
theorem Inv.take {file : Nat} (hc : (s.stage a).coordinates = true) (ho : (s.stage a).file = some (thread, file))
    (hf : s.disk.locks file = none) (hw : stage.waitsFor = none) (hfile : stage.file = some (thread, file))
    (hh : stage.holds = some (thread, file)) (hr : stage.removes = none) :
    Inv ((s.on (s.disk.lock file ⟨a, .file⟩)).at a stage) := by
  refine h.move ⟨Leaves.lock h hf, ?_, ?_, ?_, ?_, ?_, ?_⟩
  · simp [hw]
  · exact fun _ => (Leaves.lock h hf).keepsCoordination h (fun _ hl => Disk.lock_keeps hl hf) hc
  · intro x otherFile he
    rw [hfile] at he
    cases he
    exact h.file a thread file ho
  · intro x otherFile he
    rw [hh] at he
    cases he
    exact Disk.lock_same
  · exact fun _ _ => .inr hc
  · simp [hr]

/-- A call closes its lock file. -/
theorem Inv.closeFile (hw : stage.waitsFor = none)
    (hc : stage.coordinates = true → (s.stage a).coordinates = true) (hf : stage.file = none)
    (hr : ∀ t, stage.removes = some t → ∃ file, (s.stage a).holds = some (t, file)) :
    Inv ((s.on (s.disk.close ⟨a, .file⟩)).at a stage) := by
  have hh : stage.holds = none := by
    cases hheld : stage.holds with
    | none => rfl
    | some he =>
      rw [Stage.file_of_holds hheld] at hf
      cases hf
  refine h.move ⟨Leaves.close h a _, ?_, ?_, ?_, ?_, ?_, hr⟩
  · simp [hw]
  · exact fun hs => (Leaves.close h a .file).keepsCoordination h
      (fun _ hl => Disk.close_keeps hl (by simp)) (hc hs)
  · simp [hf]
  · simp [hh]
  · simp [hh]

/-- A call releases the lock of the coordination file and keeps what it holds. -/
theorem Inv.release (hw : stage.waitsFor = none) (hc : stage.coordinates = false) (hf : stage.file = stage.holds)
    (hh : stage.holds = (s.stage a).holds) (hr : stage.removes = none) :
    Inv ((s.on (s.disk.close ⟨a, .coordination⟩)).at a stage) := by
  refine h.move ⟨Leaves.close h a _, ?_, ?_, ?_, ?_, ?_, ?_⟩
  · simp [hw]
  · simp [hc]
  · intro t file he
    rw [hf, hh] at he
    exact h.file a t file (Stage.file_of_holds he)
  · intro t file he
    rw [hh] at he
    exact Disk.close_keeps (h.holds a t file he) (by simp)
  · intro held he
    rw [hh] at he
    exact .inl he
  · simp [hr]

variable [DecidableEq τ]

theorem Leaves.create (a : Nat) (name : LockPath τ) : Leaves s a (s.disk.create name) := by
  refine ⟨h.disk.create name, fun _ _ hn => .inl (Disk.create_keeps hn), fun _ _ _ hl => ?_⟩
  rwa [Disk.locks_create]

theorem Leaves.unlink {a : Nat} (hr : (s.stage a).removes = some thread) :
    Leaves s a (s.disk.unlink (.thread thread)) := by
  refine ⟨h.disk.unlink _, fun name file hn => ?_, fun _ _ _ hl => hl⟩
  by_cases he : name = .thread thread
  · exact .inr ⟨thread, he, hr⟩
  · exact .inl (Disk.unlink_keeps hn he)

/-- A call opens the coordination file and keeps what it holds. -/
theorem Inv.await (hw : stage.waitsFor = some (s.disk.openFile .coordination))
    (hc : stage.coordinates = false) (hf : stage.file = stage.holds)
    (hh : stage.holds = (s.stage a).holds) (hr : stage.removes = none) :
    Inv ((s.on (s.disk.create .coordination)).at a stage) := by
  refine h.move ⟨Leaves.create h a _, ?_, ?_, ?_, ?_, ?_, ?_⟩
  · intro co he
    rw [hw] at he
    cases he
    exact Disk.create_same
  · simp [hc]
  · intro t file he
    rw [hf, hh] at he
    exact Disk.create_keeps (h.file a t file (Stage.file_of_holds he))
  · intro t file he
    rw [hh] at he
    rw [Disk.locks_create]
    exact h.holds a t file he
  · intro held he
    rw [hh] at he
    exact .inl he
  · simp [hr]

/-- A call removes the name of the file that it closed. -/
theorem Inv.unlink (ho : (s.stage a).removes = some thread)
    (hw : stage.waitsFor = none) (hf : stage.file = none) (hr : stage.removes = none) :
    Inv ((s.on (s.disk.unlink (.thread thread))).at a stage) := by
  have hh : stage.holds = none := by
    cases hheld : stage.holds with
    | none => rfl
    | some he =>
      rw [Stage.file_of_holds hheld] at hf
      cases hf
  refine h.move ⟨Leaves.unlink h ho, ?_, ?_, ?_, ?_, ?_, ?_⟩
  · simp [hw]
  · exact fun _ => (Leaves.unlink h ho).keepsCoordination h (fun _ hl => hl)
      (Stage.coordinates_of_removes ho).1
  · simp [hf]
  · simp [hh]
  · simp [hh]
  · simp [hr]

/-- A call under coordination opens the lock file of its thread. -/
theorem Inv.openFile (hc : (s.stage a).coordinates = true)
    (hw : stage.waitsFor = none) (hf : stage.file = some (thread, s.disk.openFile (.thread thread)))
    (hh : stage.holds = none) (hr : stage.removes = none) :
    Inv ((s.on (s.disk.create (.thread thread))).at a stage) := by
  refine h.move ⟨Leaves.create h a _, ?_, ?_, ?_, ?_, ?_, ?_⟩
  · simp [hw]
  · exact fun _ => (Leaves.create h a _).keepsCoordination h (fun _ hl => by rwa [Disk.locks_create]) hc
  · intro x file he
    rw [hf] at he
    cases he
    exact Disk.create_same
  · simp [hh]
  · simp [hh]
  · simp [hr]

/-- A process that ends takes its calls and their locks with it. -/
theorem Inv.crash (env : Deployment) (proc : Nat) : Inv (step env s (.crash proc)) := by
  have hs : ∀ b, env.process b ≠ proc → (step env s (.crash proc)).stage b = s.stage b :=
    fun b hb => if_neg hb
  have hcrashed : ∀ b, env.process b = proc → (step env s (.crash proc)).stage b = .crashed :=
    fun b hb => if_pos hb
  have hl : ∀ handle file, env.process handle.actor ≠ proc → s.disk.locks file = some handle →
      (step env s (.crash proc)).disk.locks file = some handle :=
    fun handle file hlive hlock => Disk.closeAll_keeps hlock (decide_eq_false hlive)
  refine ⟨⟨h.disk.used, h.disk.injective⟩, fun b co => ?_, fun b => ?_, fun b t file => ?_,
    fun b t file => ?_, fun b t => ?_⟩
  all_goals by_cases hb : env.process b = proc
  all_goals first
    | rw [hcrashed b hb]; simp [Stage.waitsFor, Stage.coordinates, Stage.file, Stage.holds, Stage.removes]
    | rw [hs b hb]
  · exact h.waits b co
  · intro hunder
    obtain ⟨co, hd, hlock⟩ := h.coordinates b hunder
    exact ⟨co, hd, hl ⟨b, .coordination⟩ co hb hlock⟩
  · exact h.file b t file
  · exact fun hh => hl ⟨b, .file⟩ file hb (h.holds b t file hh)
  · intro hr c file hh
    by_cases hc : env.process c = proc
    · rw [hcrashed c hc] at hh
      cases hh
    · rw [hs c hc] at hh
      exact h.removes b t hr c file hh

/-- Every operation of every call keeps the invariant. -/
theorem Inv.step (env : Deployment) (ev : Event τ) : Inv (step env s ev) := by
  cases ev with
  | acquire a t =>
    simp only [WriterLock.step]
    split
    · rename_i hs
      exact h.await rfl rfl rfl (by rw [hs]; rfl) rfl
    · exact h
  | lockCoordination a =>
    simp only [WriterLock.step]
    split
    · rename_i t co hs
      split
      · rename_i hfree
        exact h.coordinate (by rw [hs]; rfl) hfree rfl rfl (by rw [hs]; rfl) rfl
      · exact h
    · rename_i t file co hs
      split
      · rename_i hfree
        exact h.coordinate (by rw [hs]; rfl) hfree rfl rfl (by rw [hs]; rfl) rfl
      · exact h
    · exact h
  | failToCoordinate a =>
    simp only [WriterLock.step]
    split
    · exact h.rest rfl (fun hc => nomatch hc) (fun _ _ hf => nomatch hf) rfl rfl
    · exact h.closeFile rfl (fun hc => nomatch hc) rfl (fun _ hr => nomatch hr)
    · exact h.closeFile rfl (fun hc => nomatch hc) rfl (fun _ hr => nomatch hr)
    · exact h
  | beginCleanup a =>
    simp only [WriterLock.step]
    split
    · rename_i t hs
      split
      · exact h.rest rfl (fun _ => by rw [hs]; rfl) (fun _ _ hf => nomatch hf) rfl rfl
      · have hi : Inv (s.at a (.cleaning t)) :=
          h.rest rfl (fun _ => by rw [hs]; rfl) (fun _ _ hf => nomatch hf) rfl rfl
        exact ⟨hi.disk, hi.waits, hi.coordinates, hi.file, hi.holds, hi.removes⟩
    · exact h
  | inspect a stale =>
    simp only [WriterLock.step]
    split
    · rename_i t hs
      split
      · rename_i file hfile
        refine h.rest rfl (fun _ => by rw [hs]; rfl) ?_ rfl rfl
        intro x otherFile he
        cases he
        exact hfile
      · exact h
    · exact h
  | tryInspected a fails =>
    simp only [WriterLock.step]
    split
    · rename_i t stale file hs
      have hunder : (s.stage a).coordinates = true := by rw [hs]; rfl
      split
      · exact h.rest rfl (fun _ => hunder) (fun _ _ hf => nomatch hf) rfl rfl
      · split
        · rename_i hfree
          exact h.take hunder (by rw [hs]; rfl) hfree rfl rfl rfl rfl
        · exact h.rest rfl (fun _ => hunder) (fun _ _ hf => nomatch hf) rfl rfl
    · exact h
  | closeInspected a =>
    simp only [WriterLock.step]
    split
    · rename_i t stale file hs
      refine h.closeFile rfl (fun _ => by rw [hs]; rfl) rfl ?_
      intro removed he
      cases he
      exact ⟨file, by rw [hs]; rfl⟩
    · exact h
  | removeStale a fails =>
    simp only [WriterLock.step]
    split
    · rename_i t stale hs
      split
      · exact h.rest rfl (fun _ => by rw [hs]; rfl) (fun _ _ hf => nomatch hf) rfl rfl
      · exact h.unlink (by rw [hs]; rfl) rfl rfl rfl
    · exact h
  | endCleanup a =>
    simp only [WriterLock.step]
    split
    · rename_i t hs
      exact h.rest rfl (fun _ => by rw [hs]; rfl) (fun _ _ hf => nomatch hf) rfl rfl
    · exact h
  | openFile a fails =>
    simp only [WriterLock.step]
    split
    · rename_i t hs
      have hunder : (s.stage a).coordinates = true := by rw [hs]; rfl
      split
      · exact h.rest rfl (fun _ => hunder) (fun _ _ hf => nomatch hf) rfl rfl
      · exact h.openFile hunder rfl rfl rfl rfl
    · exact h
  | tryLock a fails =>
    simp only [WriterLock.step]
    split
    · rename_i t file hs
      have hunder : (s.stage a).coordinates = true := by rw [hs]; rfl
      split
      · exact h.rest rfl (fun _ => hunder) (fun _ _ hf => nomatch hf) rfl rfl
      · split
        · rename_i hfree
          exact h.take hunder (by rw [hs]; rfl) hfree rfl rfl rfl rfl
        · exact h.rest rfl (fun _ => hunder) (fun _ _ hf => nomatch hf) rfl rfl
    · exact h
  | releaseCoordination a =>
    simp only [WriterLock.step]
    split
    · rename_i t file hs
      exact h.release rfl rfl rfl (by rw [hs]; rfl) rfl
    · rename_i t err hs
      exact h.release rfl rfl rfl (by rw [hs]; rfl) rfl
    · rename_i t hs
      exact h.release rfl rfl rfl (by rw [hs]; rfl) rfl
    · exact h
  | drop a =>
    simp only [WriterLock.step]
    split
    · rename_i t file hs
      exact h.await rfl rfl rfl (by rw [hs]; rfl) rfl
    · exact h
  | closeFile a =>
    simp only [WriterLock.step]
    split
    · rename_i t file hs
      refine h.closeFile rfl (fun _ => by rw [hs]; rfl) rfl ?_
      intro removed he
      cases he
      exact ⟨file, by rw [hs]; rfl⟩
    · exact h
  | removeFile a fails =>
    simp only [WriterLock.step]
    split
    · rename_i t hs
      split
      · exact h.rest rfl (fun _ => by rw [hs]; rfl) (fun _ _ hf => nomatch hf) rfl rfl
      · exact h.unlink (by rw [hs]; rfl) rfl rfl rfl
    · exact h
  | crash proc => exact h.crash env proc

end Steps

variable [DecidableEq τ]

/-- A live guard is the only one of its thread, it holds the lock of the file that is under the name of the thread,
and an `acquire` that comes to try the lock meanwhile has that file open and is refused. -/
structure Exclusive (env : Deployment) (s : State τ) (a : Nat) (thread : τ) (file : Nat) : Prop where
  only : ∀ b other, (s.stage b).guard = some (thread, other) → b = a
  named : s.disk.directory (.thread thread) = some file
  locked : s.disk.locks file = some ⟨a, .file⟩
  refused : ∀ b other, s.stage b = .opened thread other → other = file ∧
    (step env s (.tryLock b false)).stage b = .rejected thread .conflict

theorem Inv.exclusive {s : State τ} (h : Inv s) (env : Deployment) {a : Nat} {t : τ} {file : Nat}
    (hg : (s.stage a).guard = some (t, file)) : Exclusive env s a t file := by
  have hh := Stage.holds_of_guard hg
  have hn := h.file a t file (Stage.file_of_holds hh)
  have hl := h.holds a t file hh
  refine ⟨fun b x hb => h.holder_unique (Stage.holds_of_guard hb) hh, hn, hl, ?_⟩
  intro b x hb
  have ho := h.file b t x (by rw [hb]; rfl)
  rw [hn] at ho
  cases ho
  simp [WriterLock.step, hb, hl, State.at]

/-- However acquires, drops, cleanups and ends of processes interleave, a live guard is exclusive. -/
theorem writer_guard_exclusive (env : Deployment) {s : State τ} (h : Initial s) (events : List (Event τ)) (a : Nat)
    (thread : τ) (file : Nat) (hguard : ((run (step env) s events).stage a).guard = some (thread, file)) :
    Exclusive env (run (step env) s events) a thread file :=
  (invariant (fun _ event hi => hi.step env event) (inv_of_initial h) events).exclusive env hguard

/-- In every run at most one call is under coordination, and none is about to remove the lock file of a live guard. -/
theorem coordination_exclusive (env : Deployment) (h : Initial s) (events : List (Event τ)) :
    let last := run (step env) s events
    (∀ a b, (last.stage a).coordinates → (last.stage b).coordinates → a = b) ∧
      ∀ a thread, (last.stage a).removes = some thread → ∀ b file, (last.stage b).guard ≠ some (thread, file) := by
  intro last
  have hi : Inv last := invariant (fun _ event hi => hi.step env event) (inv_of_initial h) events
  refine ⟨fun a b => hi.coordinator_unique, fun a thread hr b file hg => ?_⟩
  exact hi.removes a thread hr b file (Stage.holds_of_guard hg)

/-- Two processes with one call each, and no lock file yet. -/
def twoProcesses : Deployment := ⟨id, id⟩

def fresh : State Nat := ⟨⟨fun _ => none, 0, fun _ => none⟩, fun _ => .idle, fun _ => false⟩

/-- The operations of a call up to its try of the lock. -/
def untilTry (actor thread : Nat) : List (Event Nat) :=
  [.acquire actor thread, .lockCoordination actor, .beginCleanup actor, .endCleanup actor, .openFile actor false]

/-- The second writer of a thread finds the file of the first one and is refused. -/
theorem second_writer_refused :
    Initial fresh ∧ Exclusive twoProcesses
      (run (step twoProcesses) fresh (untilTry 0 7 ++ [.tryLock 0 false, .releaseCoordination 0] ++ untilTry 1 7))
      0 7 1 := by
  have hi : Initial fresh := ⟨⟨by simp [fresh], by simp [fresh]⟩, fun _ => rfl⟩
  exact ⟨hi, writer_guard_exclusive twoProcesses hi _ 0 7 1 rfl⟩

/-- One call keeps its guard; another one has closed its lock file and is about to remove it. -/
def oneGuardOneDrop : List (Event Nat) :=
  untilTry 0 7 ++ [.tryLock 0 false, .releaseCoordination 0] ++ untilTry 1 8 ++
    [.tryLock 1 false, .releaseCoordination 1, .drop 1, .lockCoordination 1, .closeFile 1]

theorem first_call_coordinates_alone :
    Initial fresh ∧ (∀ b, ((run (step twoProcesses) fresh (untilTry 0 7)).stage b).coordinates → 0 = b) ∧
      ((run (step twoProcesses) fresh oneGuardOneDrop).stage 0).guard = some (7, 1) ∧
      ((run (step twoProcesses) fresh oneGuardOneDrop).stage 1).removes = some 8 ∧
      ∀ b file, ((run (step twoProcesses) fresh oneGuardOneDrop).stage b).guard ≠ some (8, file) := by
  have hi : Initial fresh := ⟨⟨by simp [fresh], by simp [fresh]⟩, fun _ => rfl⟩
  exact ⟨hi, fun b => (coordination_exclusive twoProcesses hi _).1 0 b rfl, rfl, rfl,
    (coordination_exclusive twoProcesses hi oneGuardOneDrop).2 1 8 rfl⟩

end WriterExclusion
