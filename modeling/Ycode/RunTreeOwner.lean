import Ycode.Runs

/-!
# Owners of a native run tree

`NativeRunTreeRegistry` holds at most one active run. The clones of its `NativeRunTreeOwner` share one reference count,
and a drop that reads the count 1 removes the run. A drop reads the count, clears the registry and releases its
reference in separate steps; drops on other threads come between them.
-/
namespace RunTreeOwner

/-- Where a clone stands: in use, dropped and about to clear the registry, about to release its reference, or gone. -/
inductive Clone where
  | held
  | clearing
  | releasing
  | gone
  deriving DecidableEq

/-- `Arc::strong_count(&self.lifetime)`. -/
def strongCount (clones : List Clone) : Nat := clones.countP (· ≠ .gone)

def count (stage : Clone) (clones : List Clone) : Nat := clones.countP (· = stage)

theorem count_add_le (clones : List Clone) :
    count .held clones + count .clearing clones + count .releasing clones ≤ strongCount clones := by
  induction clones with
  | nil => exact Nat.le_refl 0
  | cons clone clones ih => cases clone <;> simp [count, strongCount] at ih ⊢ <;> omega

theorem count_pos {idx : Nat} (h : clones[idx]? = some stage) : 0 < count stage clones :=
  List.countP_pos_iff.mpr ⟨stage, List.mem_of_getElem? h, decide_eq_true rfl⟩

theorem count_set {idx : Nat} (h : clones[idx]? = some old) (new sg : Clone) :
    count sg (clones.set idx new) + (decide (old = sg)).toNat = count sg clones + (decide (new = sg)).toNat :=
  Runs.countP_set_add h _ new

theorem strongCount_set {idx : Nat} (h : clones[idx]? = some old) (new : Clone) :
    strongCount (clones.set idx new) + (decide (old ≠ .gone)).toNat =
      strongCount clones + (decide (new ≠ .gone)).toNat :=
  Runs.countP_set_add h _ new

variable {ι T : Type}

/-- `tx` is the number of the run's watch channel. -/
structure ActiveRun (ι T : Type) where
  identity : ι
  snapshot : T
  tx : Nat

/-- `NativeRunTreeRegistry`, with the value every watch channel shows to its subscribers. -/
structure Registry (ι T : Type) where
  active : Option (ActiveRun ι T) := none
  channels : List (Option T) := []

namespace Registry

def begin (registry : Registry ι T) (identity : ι) (snapshot : T) : Except String (Registry ι T) :=
  match registry.active with
  | some _ => .error "a native run tree is already active"
  | none => .ok ⟨some ⟨identity, snapshot, registry.channels.length⟩, registry.channels ++ [some snapshot]⟩

/-- What `finish` and the last drop do: the run's subscribers see `None`, and the run is gone. The last status that
`finish` gives to the root is in a snapshot that leaves with the run. -/
def clear [DecidableEq ι] (registry : Registry ι T) (identity : ι) : Registry ι T :=
  match registry.active with
  | none => registry
  | some run => if run.identity = identity then ⟨none, registry.channels.set run.tx none⟩ else registry

/-- What the operations on the tree do to the run of their identity: they change its snapshot and publish it. -/
def withActive [DecidableEq ι] (registry : Registry ι T) (identity : ι) (update : T → T) : Registry ι T :=
  match registry.active with
  | none => registry
  | some run =>
    if run.identity = identity then
      ⟨some { run with snapshot := update run.snapshot }, registry.channels.set run.tx (some (update run.snapshot))⟩
    else registry

end Registry

/-- The registry with the clones of one owner. -/
structure State (ι T : Type) where
  registry : Registry ι T
  identity : ι
  clones : List Clone

inductive Move (T : Type) where
  | clone
  | update (update : T → T)
  | finish
  | read
  | clear
  | release

/-- The stage a clone makes the move in. -/
def Move.stage : Move T → Clone
  | .clear => .clearing
  | .release => .releasing
  | _ => .held

def perform [DecidableEq ι] (s : State ι T) (index : Nat) : Move T → State ι T
  | .clone => { s with clones := s.clones ++ [.held] }
  | .update update => { s with registry := s.registry.withActive s.identity update }
  | .finish => { s with registry := s.registry.clear s.identity }
  | .read => { s with clones := s.clones.set index (if strongCount s.clones ≠ 1 then .releasing else .clearing) }
  | .clear => { s with registry := s.registry.clear s.identity, clones := s.clones.set index .releasing }
  | .release => { s with clones := s.clones.set index .gone }

/-- The clone with this number makes a move. -/
def step [DecidableEq ι] (s : State ι T) (action : Nat × Move T) : State ι T :=
  if s.clones[action.1]? = some action.2.stage then perform s action.1 action.2 else s

/-- No run of this identity is left, the subscribers of its channel see `None`, and a run can begin. -/
def Freed (tx : Nat) (s : State ι T) : Prop :=
  (∀ run, s.registry.active = some run → run.identity ≠ s.identity) ∧ s.registry.channels[tx]? = some none ∧
    ∀ other snapshot, ∃ registry, s.registry.begin other snapshot = .ok registry

/-- A drop that begins when no other clone is in use finds the references of the others released, or no run. -/
def ReadsAlone (s : State ι T) : Nat × Move T → Prop
  | (index, .read) =>
    s.clones[index]? = some .held → s.registry.active ≠ none → count .held s.clones = 1 → strongCount s.clones = 1
  | _ => True

structure Inv (tx : Nat) (s : State ι T) : Prop where
  channel : tx < s.registry.channels.length
  ended : s.registry.active = none → s.registry.channels[tx]? = some none
  own : ∀ run, s.registry.active = some run → run.identity = s.identity ∧ run.tx = tx
  alone : 0 < count .clearing s.clones → strongCount s.clones = 1

/-- As long as the run is there, a clone can still end it. -/
def Served (s : State ι T) : Prop := s.registry.active ≠ none → 0 < count .held s.clones + count .clearing s.clones

/-- The run is there, and no clone will end it. -/
def Stuck (s : State ι T) : Prop :=
  s.registry.active ≠ none ∧ count .held s.clones = 0 ∧ count .clearing s.clones = 0

/-- What a step keeps: the invariant; with a lonely last read, a clone that can end the run; and being stuck. -/
def Keeps (tx : Nat) (s : State ι T) (action : Nat × Move T) (s' : State ι T) : Prop :=
  Inv tx s' ∧ (Served s → ReadsAlone s action → Served s') ∧ (Stuck s → Stuck s')

variable {s : State ι T}

theorem Inv.freed_iff (h : Inv tx s) : Freed tx s ↔ s.registry.active = none := by
  constructor
  · rintro ⟨ho, _⟩
    cases ha : s.registry.active with
    | none => rfl
    | some run => exact absurd (h.own run ha).1 (ho run ha)
  · intro ha
    refine ⟨fun run hr => ?_, h.ended ha, fun x snapshot => ?_⟩
    · rw [ha] at hr
      cases hr
    · simp [Registry.begin, ha]

variable [DecidableEq ι]

theorem Inv.clear (h : Inv tx s) : Inv tx { s with registry := s.registry.clear s.identity } ∧
    (s.registry.clear s.identity).active = none := by
  unfold Registry.clear
  split
  · rename_i hn
    exact ⟨h, hn⟩
  · rename_i run ha
    obtain ⟨hi, rfl⟩ := h.own run ha
    rw [if_pos hi]
    refine ⟨⟨?_, fun _ => ?_, ?_, h.alone⟩, rfl⟩
    · simpa using h.channel
    · simp [h.channel]
    · rintro _ ⟨⟩

theorem Inv.withActive (h : Inv tx s) (update : T → T) :
    Inv tx { s with registry := s.registry.withActive s.identity update } ∧
    ((s.registry.withActive s.identity update).active = none ↔ s.registry.active = none) := by
  unfold Registry.withActive
  split
  · exact ⟨h, Iff.rfl⟩
  · rename_i run ha
    obtain ⟨hi, rfl⟩ := h.own run ha
    rw [if_pos hi]
    refine ⟨⟨?_, ?_, ?_, h.alone⟩, by simp [ha]⟩
    · simpa using h.channel
    · rintro ⟨⟩
    · rintro _ ⟨⟩
      exact ⟨hi, rfl⟩

/-- A drop reads the count. The count 1 makes it the clone that ends the run. -/
theorem Inv.read (h : Inv tx s) (hclone : s.clones[index]? = some .held) :
    Keeps tx s (index, .read) (perform s index .read) := by
  have hp := count_pos hclone
  have ha := h.alone
  rw [perform]
  by_cases ho : strongCount s.clones = 1
  · have hc := count_set hclone .clearing .clearing
    have ht := strongCount_set hclone .clearing
    rw [if_neg (not_not.mpr ho)]
    simp at hc ht
    refine ⟨⟨h.channel, h.ended, h.own, fun _ => ht.trans ho⟩, fun _ _ _ => ?_, fun hs => ?_⟩
    · simp only [hc]
      omega
    · have := hs.2.1
      omega
  · have hh := count_set hclone .releasing .held
    have hc := count_set hclone .releasing .clearing
    rw [if_pos ho]
    simp at hh hc
    refine ⟨⟨h.channel, h.ended, h.own, fun hp => ?_⟩, fun _ hr hne => ?_, fun hs => ?_⟩
    · exact absurd (ha (hc ▸ hp)) ho
    · have := mt (hr hclone hne) ho
      simp only
      omega
    · have := hs.2.1
      omega

theorem Inv.perform (h : Inv tx s) {move : Move T} (hc : s.clones[index]? = some move.stage) :
    Keeps tx s (index, move) (perform s index move) := by
  have hle := count_add_le s.clones
  have halone := h.alone
  have hp := count_pos hc
  cases move with
  | clone =>
    have hl : count .clearing (s.clones ++ [.held]) = count .clearing s.clones := by simp [count]
    refine ⟨⟨h.channel, h.ended, h.own, fun hp => ?_⟩, fun _ _ _ => ?_, fun hs => ?_⟩
    · simp only [RunTreeOwner.perform, Move.stage] at *
      omega
    · simp only [RunTreeOwner.perform, count, List.countP_append]
      exact Nat.add_pos_left (Nat.add_pos_left hp _) _
    · exact absurd hs.2.1 (Nat.ne_of_gt hp)
  | update update =>
    obtain ⟨hi, ha⟩ := h.withActive update
    exact ⟨hi, fun hserved _ hne => hserved (mt ha.mpr hne), fun hs => ⟨mt ha.mp hs.1, hs.2⟩⟩
  | finish =>
    obtain ⟨hi, ha⟩ := h.clear
    exact ⟨hi, fun _ _ hne => absurd ha hne, fun hs => absurd hs.2.1 (Nat.ne_of_gt hp)⟩
  | read => exact h.read hc
  | clear =>
    have ht := strongCount_set hc .releasing
    obtain ⟨hi, ha⟩ := h.clear
    simp [Move.stage] at ht
    exact ⟨⟨hi.channel, hi.ended, hi.own, fun _ => ht.trans (halone hp)⟩,
      fun _ _ hne => absurd ha hne, fun hs => absurd hs.2.2 (Nat.ne_of_gt hp)⟩
  | release =>
    have hh := count_set hc .gone .held
    have hl := count_set hc .gone .clearing
    simp [Move.stage] at hh hl
    simp only [Move.stage] at hp
    refine ⟨⟨h.channel, h.ended, h.own, fun hp => ?_⟩, fun hserved _ hne => ?_, fun hs => ⟨hs.1, ?_⟩⟩
    · simp only [RunTreeOwner.perform] at *
      omega
    · have := hserved hne
      simp only [RunTreeOwner.perform]
      omega
    · have := hs.2
      simp only [RunTreeOwner.perform]
      omega

theorem Inv.step (h : Inv tx s) (a : Nat × Move T) : Keeps tx s a (step s a) := by
  rw [RunTreeOwner.step]
  split
  · rename_i hc
    exact h.perform hc
  · exact ⟨h, fun hs _ => hs, id⟩

/-- A last read that finds the reference of another clone: nobody ends the run. -/
theorem Inv.stuck_of_read (h : Inv tx s) {a : Nat × Move T} (hn : ¬ReadsAlone s a) :
    Stuck (RunTreeOwner.step s a) := by
  obtain ⟨idx, move⟩ := a
  cases move with
  | read =>
    simp only [ReadsAlone, Classical.not_imp] at hn
    obtain ⟨hc, ha, ho, hs⟩ := hn
    have hh := count_set hc .releasing .held
    have hl := count_set hc .releasing .clearing
    have halone := h.alone
    simp at hh hl
    rw [RunTreeOwner.step, if_pos (by exact hc), RunTreeOwner.perform, if_pos hs]
    refine ⟨ha, ?_⟩
    simp only
    omega
  | _ => exact absurd trivial hn

/-- Once all clones are gone, the run has ended if and only if the last read was alone. -/
theorem Inv.run (h : Inv tx s) (hv : Served s) (actions : List (Nat × Move T))
    (hg : strongCount (Runs.run RunTreeOwner.step s actions).clones = 0) :
    Freed tx (Runs.run RunTreeOwner.step s actions) ↔ Runs.Each RunTreeOwner.step ReadsAlone s actions := by
  induction actions generalizing s with
  | nil =>
    refine ⟨fun _ => trivial, fun _ => h.freed_iff.mpr ?_⟩
    by_contra ha
    have := hv ha
    have := count_add_le s.clones
    rw [Runs.run_nil] at hg
    omega
  | cons a actions ih =>
    obtain ⟨hi, hk, _⟩ := h.step a
    by_cases hr : ReadsAlone s a
    · exact (ih hi (hk hv hr) hg).trans ⟨fun he => ⟨hr, he⟩, fun he => he.2⟩
    · have hstuck := Runs.invariant (p := fun s => Inv tx s ∧ Stuck s)
        (fun _ a hs => ⟨(hs.1.step a).1, (hs.1.step a).2.2 hs.2⟩) ⟨hi, h.stuck_of_read hr⟩ actions
      exact ⟨fun hf => absurd (hstuck.1.freed_iff.mp hf) hstuck.2.1, fun he => absurd he.1 hr⟩

theorem other_untouched (ha : s.registry.active = some run) (ho : run.identity ≠ s.identity) :
    (step s action).registry = s.registry := by
  obtain ⟨idx, move⟩ := action
  rw [step]
  split
  · cases move <;> simp [perform, Registry.clear, Registry.withActive, ha, ho]
  · rfl

/-- However an owner is cloned and dropped, when the last clone is gone the tree has been freed if and only if the last
drop to read the count read it alone. The run of another identity is never touched. -/
theorem last_drop_frees_iff {registry opened : Registry ι T} {identity : ι} {snapshot : T}
    (hbegin : registry.begin identity snapshot = .ok opened) (actions : List (Nat × Move T))
    (hgone : strongCount (Runs.run step ⟨opened, identity, [.held]⟩ actions).clones = 0) :
    (Freed registry.channels.length (Runs.run step ⟨opened, identity, [.held]⟩ actions) ↔
      Runs.Each step ReadsAlone ⟨opened, identity, [.held]⟩ actions) ∧
    ∀ (s : State ι T) action run, s.registry.active = some run → run.identity ≠ s.identity →
      (step s action).registry = s.registry := by
  refine ⟨?_, fun s action run ha ho => other_untouched ha ho⟩
  rw [Registry.begin] at hbegin
  split at hbegin
  · cases hbegin
  · cases hbegin
    refine Inv.run ⟨by simp, ?_, ?_, by simp [count]⟩ (fun _ => ?_) actions hgone
    · rintro ⟨⟩
    · rintro _ ⟨⟩
      exact ⟨rfl, rfl⟩
    · exact Nat.one_pos

/-- Two clones, dropped one after the other. -/
def inTurn : List (Nat × Move Nat) := [(0, .clone), (0, .read), (0, .release), (1, .read), (1, .clear), (1, .release)]

theorem inTurn_frees :
    Runs.Each step ReadsAlone ⟨⟨some ⟨7, 0, 0⟩, [some 0]⟩, 7, [.held]⟩ inTurn ∧
      Freed 0 (Runs.run step ⟨⟨some ⟨7, 0, 0⟩, [some 0]⟩, 7, [.held]⟩ inTurn) := by
  have hr : Runs.Each step ReadsAlone ⟨⟨some ⟨7, 0, 0⟩, [some 0]⟩, 7, [.held]⟩ inTurn :=
    ⟨trivial, fun _ _ => by decide, trivial, fun _ _ => by decide, trivial, trivial, trivial⟩
  exact ⟨hr, (last_drop_frees_iff (rfl : Registry.begin {} 7 0 = .ok _) inTurn (by decide)).1.mpr hr⟩

/-- Two clones whose drops both read the count 2. -/
def atOnce : List (Nat × Move Nat) := [(0, .clone), (0, .read), (1, .read), (0, .release), (1, .release)]

theorem atOnce_keeps_the_run :
    strongCount (Runs.run step (⟨⟨some ⟨7, 0, 0⟩, [some 0]⟩, 7, [.held]⟩ : State Nat Nat) atOnce).clones = 0 ∧
      (Runs.run step (⟨⟨some ⟨7, 0, 0⟩, [some 0]⟩, 7, [.held]⟩ : State Nat Nat) atOnce).registry.active =
        some ⟨7, 0, 0⟩ :=
  ⟨rfl, rfl⟩

end RunTreeOwner
