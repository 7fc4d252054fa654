import Ycode.Runs

/-!
# Residency of loaded sub-agents

`V2Residency` keeps the loaded sub-agents, least recently used first, and counts the slots of those still being loaded.
One action is what a call does under one lock of the mutex; other calls run between two of them.
-/
namespace Residency

open List

variable {θ : Type}

structure V2ResidencyState (θ : Type) where
  residents : List θ := []
  pendingSlots : Nat := 0

variable [DecidableEq θ]

def touchResident (residents : List θ) (threadId : θ) : List θ := residents.filter (· ≠ threadId) ++ [threadId]

namespace V2ResidencyState

def tryReservePendingSlot (capacity : Nat) (state : V2ResidencyState θ) : Option (V2ResidencyState θ) :=
  if state.residents.length + state.pendingSlots ≥ capacity then none
  else some { state with pendingSlots := state.pendingSlots + 1 }

/-- The loop of `pop_lru_candidate`, with the number of rounds left. -/
def popFrom (protectedThreadId : Option θ) : Nat → List θ → Option θ × List θ
  | 0, residents => (none, residents)
  | _ + 1, [] => (none, [])
  | rounds + 1, candidate :: residents =>
    if some candidate = protectedThreadId then popFrom protectedThreadId rounds (residents ++ [candidate])
    else (some candidate, residents)

def popLruCandidate (protectedThreadId : Option θ) (state : V2ResidencyState θ) : Option θ × V2ResidencyState θ :=
  let popped := popFrom protectedThreadId state.residents.length state.residents
  (popped.1, { state with residents := popped.2 })

def touch (threadId : θ) (state : V2ResidencyState θ) : V2ResidencyState θ :=
  { state with residents := touchResident state.residents threadId }

def remove (threadId : θ) (state : V2ResidencyState θ) : V2ResidencyState θ :=
  { state with residents := state.residents.filter (· ≠ threadId) }

def releasePendingSlot (state : V2ResidencyState θ) : V2ResidencyState θ :=
  { state with pendingSlots := state.pendingSlots - 1 }

def commitSlot (threadId : θ) (state : V2ResidencyState θ) : V2ResidencyState θ :=
  ⟨touchResident state.residents threadId, state.pendingSlots - 1⟩

end V2ResidencyState

/-- Where a call of `reserve_slot` stands; `left` is the rest of `candidates_to_scan`. -/
inductive Stage (θ : Type) where
  | reserving
  | counting
  | scanning (left : Nat)
  | unloading (candidate : θ) (left : Nat)
  | holding
  | ended

def Stage.holds : Stage θ → Bool
  | .holding => true
  | _ => false

def Stage.reserves : Stage θ → Bool
  | .reserving => true
  | _ => false

structure Call (θ : Type) where
  protectedThreadId : Option θ
  stage : Stage θ

/-- What the awaits on a candidate come to: it is no resident candidate any more; it is not unloadable, or its shutdown
fails; it is unloaded; or the call is dropped there. -/
inductive Outcome where
  | gone
  | kept
  | unloaded
  | cancelled

structure State (θ : Type) where
  residency : V2ResidencyState θ := {}
  calls : List (Call θ) := []

def State.at (s : State θ) (index : Nat) (call : Call θ) (residency : V2ResidencyState θ) (stage : Stage θ) : State θ :=
  ⟨residency, s.calls.set index { call with stage }⟩

inductive Action (θ : Type) where
  | reserveSlot (protectedThreadId : Option θ)
  | advance (index : Nat)
  | answer (index : Nat) (outcome : Outcome)
  | commit (index : Nat) (threadId : θ)
  | drop (index : Nat)
  | forget (threadId : θ)
  | touch (threadId : θ)

/-- The next lock of a call that waits for nothing else. -/
def advance (capacity : Nat) (s : State θ) (index : Nat) (call : Call θ) : State θ :=
  match call.stage with
  | .reserving =>
    match s.residency.tryReservePendingSlot capacity with
    | some residency => s.at index call residency .holding
    | none => s.at index call s.residency .counting
  | .counting => s.at index call s.residency (.scanning s.residency.residents.length)
  -- `AgentLimitReached`
  | .scanning 0 => s.at index call s.residency .ended
  | .scanning (left + 1) =>
    match s.residency.popLruCandidate call.protectedThreadId with
    | (none, residency) => s.at index call residency .ended
    | (some candidate, residency) => s.at index call residency (.unloading candidate left)
  | _ => s

def answer (s : State θ) (index : Nat) (call : Call θ) (outcome : Outcome) : State θ :=
  match call.stage with
  | .unloading candidate left =>
    match outcome with
    | .gone => s.at index call s.residency (.scanning left)
    | .kept => s.at index call (s.residency.touch candidate) (.scanning left)
    | .unloaded => s.at index call s.residency .reserving
    | .cancelled => s.at index call s.residency .ended
  | _ => s

/-- A slot ends once, by its commit or by its drop. -/
def settle (s : State θ) (index : Nat) (call : Call θ) (residency : V2ResidencyState θ) : State θ :=
  match call.stage with
  | .holding => s.at index call residency .ended
  | _ => s

def onCall (s : State θ) (index : Nat) (f : Call θ → State θ) : State θ :=
  match s.calls[index]? with
  | some call => f call
  | none => s

def step (capacity : Nat) (s : State θ) : Action θ → State θ
  | .reserveSlot protectedThreadId => { s with calls := s.calls ++ [⟨protectedThreadId, .reserving⟩] }
  | .advance index => onCall s index (advance capacity s index)
  | .answer index outcome => onCall s index (answer s index · outcome)
  | .commit index threadId => onCall s index (settle s index · (s.residency.commitSlot threadId))
  | .drop index => onCall s index (settle s index · s.residency.releasePendingSlot)
  | .forget threadId => { s with residency := s.residency.remove threadId }
  | .touch threadId => { s with residency := s.residency.touch threadId }

/-- At most `capacity` sub-agents are loaded or being loaded, and none twice. -/
structure Within (capacity : Nat) (state : V2ResidencyState θ) : Prop where
  nodup : state.residents.Nodup
  fits : state.residents.length + state.pendingSlots ≤ capacity

def Stage.candidate? : Stage θ → Option θ
  | .unloading candidate _ => some candidate
  | _ => none

/-- The candidates of the unload attempts that have not ended. -/
def outOf (calls : List (Call θ)) : List θ := calls.flatMap (·.stage.candidate?.toList)

/-- The state when all these attempts have ended with their candidates put back. -/
def allPutBack (capacity : Nat) (s : State θ) : State θ :=
  Runs.run (step capacity) s ((range s.calls.length).map (.answer · .kept))

/-- Callers touch residents only, and only new threads are committed. -/
def Proper (s : State θ) : Action θ → Prop
  | .touch threadId => threadId ∈ s.residency.residents
  | .commit _ threadId => threadId ∉ s.residency.residents ++ outOf s.calls
  | _ => True

/-- A reservation that gets its slot leaves room for the candidates of the unload attempts that have not ended. -/
def LeavesRoom (capacity : Nat) (s : State θ) : Action θ → Prop
  | .advance index => ∀ call ∈ s.calls[index]?, call.stage.reserves →
      s.residency.residents.length + s.residency.pendingSlots < capacity →
        s.residency.residents.length + s.residency.pendingSlots + (outOf s.calls).length < capacity
  | _ => True

instance (s : State θ) (action : Action θ) : Decidable (Proper s action) := by
  unfold Proper
  split <;> infer_instance

instance (capacity : Nat) (s : State θ) (action : Action θ) : Decidable (LeavesRoom capacity s action) := by
  unfold LeavesRoom
  split <;> infer_instance

section Residents

variable {threadId : θ}

theorem nodup_touchResident (h : residents.Nodup) : (touchResident residents threadId).Nodup := by
  rw [touchResident, ← concat_eq_append]
  exact List.Nodup.concat (by simp) (h.filter _)

theorem touchResident_of_not_mem (h : threadId ∉ residents) :
    touchResident residents threadId = residents ++ [threadId] := by
  rw [touchResident, filter_eq_self.mpr fun x ho => by simpa using ne_of_mem_of_not_mem ho h]

theorem touchResident_perm (h : residents.Nodup) (hm : threadId ∈ residents) :
    (touchResident residents threadId).Perm residents := by
  have he : residents.filter (· ≠ threadId) = residents.erase threadId := by
    rw [h.erase_eq_filter]
    exact filter_congr fun x _ => decide_not
  rw [touchResident, he]
  exact (perm_append_singleton _ _).trans (perm_cons_erase hm).symm

/-- Popping takes out the candidate and loses nothing else. -/
theorem popFrom_perm (protectedThreadId : Option θ) (rounds : Nat) (residents : List θ) :
    ((V2ResidencyState.popFrom protectedThreadId rounds residents).1.toList ++
      (V2ResidencyState.popFrom protectedThreadId rounds residents).2).Perm residents := by
  fun_induction V2ResidencyState.popFrom protectedThreadId rounds residents with
  | case3 rounds cand residents hs ih => exact ih.trans perm_append_comm
  | _ => exact .refl _

end Residents

section Out

variable {s : State θ} {call : Call θ}

omit [DecidableEq θ] in
/-- A call that moves on changes its own candidate only. -/
theorem outOf_at (hc : s.calls[index]? = some call) : ∃ rest,
    (outOf s.calls).Perm (call.stage.candidate?.toList ++ rest) ∧
      ∀ (res : V2ResidencyState θ) (stage : Stage θ),
        (outOf (s.at index call res stage).calls).Perm (stage.candidate?.toList ++ rest) := by
  obtain ⟨hlt, rfl⟩ := List.getElem?_eq_some_iff.mp hc
  have hm : ∀ own : Call θ, (outOf (s.calls.take index ++ own :: s.calls.drop (index + 1))).Perm
      (own.stage.candidate?.toList ++ (outOf (s.calls.take index) ++ outOf (s.calls.drop (index + 1)))) := by
    intro own
    rw [outOf, flatMap_append, flatMap_cons, ← append_assoc, ← append_assoc]
    exact perm_append_comm.append_right _
  refine ⟨outOf (s.calls.take index) ++ outOf (s.calls.drop (index + 1)), ?_, fun res stage => ?_⟩
  · have h := hm s.calls[index]
    rwa [← drop_eq_getElem_cons hlt, take_append_drop] at h
  · rw [State.at, set_eq_take_append_cons_drop, if_pos hlt]
    exact hm _

/-- When the first attempts have ended, the rest of the calls is as it was, and their candidates are residents. -/
theorem putBack_first (capacity : Nat) (hn : (s.residency.residents ++ outOf s.calls).Nodup) (n : Nat)
    (hle : n ≤ s.calls.length) :
    let after := Runs.run (step capacity) s ((range n).map (.answer · .kept))
    after.calls.drop n = s.calls.drop n ∧ after.residency.pendingSlots = s.residency.pendingSlots ∧
      after.residency.residents.Perm (s.residency.residents ++ outOf (s.calls.take n)) := by
  induction n with
  | zero => exact ⟨rfl, rfl, by simp [outOf]⟩
  | succ n ih =>
    obtain ⟨hd, hp, hr⟩ := ih (Nat.le_of_succ_le hle)
    simp only [range_succ, map_append, map_singleton, Runs.run_append, Runs.run_cons, Runs.run_nil]
    generalize Runs.run (step capacity) s ((range n).map (.answer · .kept)) = after at hd hp hr
    have hown : after.calls[n]? = some s.calls[n] := by
      have h := congrArg (·[0]?) hd
      simp only [getElem?_drop, Nat.add_zero] at h
      rw [h, getElem?_eq_getElem hle]
    have hnext : after.calls.drop (n + 1) = s.calls.drop (n + 1) := by
      rw [← drop_drop, hd, drop_drop]
    have hout : outOf (s.calls.take (n + 1)) = outOf (s.calls.take n) ++ s.calls[n].stage.candidate?.toList := by
      rw [outOf, take_succ_eq_append_getElem hle, flatMap_append, flatMap_singleton]
      rfl
    rw [hout, step, onCall, hown]
    simp only [answer]
    split
    · rename_i cand left hs
      have hc : cand ∉ after.residency.residents := by
        intro hm
        have hsplit : (s.residency.residents ++ outOf s.calls).Perm
            ((s.residency.residents ++ outOf (s.calls.take n)) ++ outOf (s.calls.drop n)) := by
          rw [append_assoc, outOf, outOf, outOf, ← flatMap_append, take_append_drop]
        have hdis := (nodup_append.mp (hsplit.nodup_iff.mp hn)).2.2
        refine hdis cand (hr.mem_iff.mp hm) cand ?_ rfl
        rw [outOf, drop_eq_getElem_cons hle, flatMap_cons, hs]
        exact mem_cons_self
      refine ⟨?_, hp, ?_⟩
      · rw [State.at, drop_set_of_lt (Nat.lt_succ_self n)]
        exact hnext
      · rw [hs, ← append_assoc]
        simp only [State.at, V2ResidencyState.touch, touchResident_of_not_mem hc]
        exact hr.append_right _
    · rename_i hs
      have hnone : s.calls[n].stage.candidate? = none := by
        unfold Stage.candidate?
        split
        · rename_i cand left he
          exact absurd he (hs cand left)
        · rfl
      rw [hnone]
      exact ⟨hnext, hp, by simpa using hr⟩

theorem allPutBack_spec (capacity : Nat) (hn : (s.residency.residents ++ outOf s.calls).Nodup) :
    (allPutBack capacity s).residency.pendingSlots = s.residency.pendingSlots ∧
      (allPutBack capacity s).residency.residents.Perm (s.residency.residents ++ outOf s.calls) := by
  obtain ⟨-, hp, hr⟩ := putBack_first capacity hn s.calls.length (Nat.le_refl _)
  rw [take_length] at hr
  exact ⟨hp, hr⟩

end Out

/-- What holds of every state: each pending slot is the slot of one call, and the candidates of the unload attempts
still fit. -/
structure Inv (capacity : Nat) (s : State θ) : Prop where
  nodup : (s.residency.residents ++ outOf s.calls).Nodup
  fits : s.residency.residents.length + s.residency.pendingSlots + (outOf s.calls).length ≤ capacity
  slots : s.residency.pendingSlots = s.calls.countP (·.stage.holds)

section Calls

variable {s : State θ} {call : Call θ}

omit [DecidableEq θ]

/-- A call moves on: it adds new threads only, and the number of slots changes as the call takes or gives up its own. -/
theorem Inv.at (h : Inv capacity s) (hc : s.calls[index]? = some call) {res : V2ResidencyState θ} {stage : Stage θ}
    (new : List θ) (hn : ((s.residency.residents ++ outOf s.calls) ++ new).Nodup)
    (hsub : (res.residents ++ stage.candidate?.toList).Subperm
      ((s.residency.residents ++ call.stage.candidate?.toList) ++ new))
    (hf : s.residency.residents.length + (outOf s.calls).length + new.length + res.pendingSlots ≤ capacity)
    (hs : res.pendingSlots + call.stage.holds.toNat = s.residency.pendingSlots + stage.holds.toNat) :
    Inv capacity (s.at index call res stage) := by
  obtain ⟨rest, ho, hat⟩ := outOf_at hc
  have hall : (res.residents ++ outOf (s.at index call res stage).calls).Subperm
      ((s.residency.residents ++ outOf s.calls) ++ new) := by
    have hback : (((s.residency.residents ++ call.stage.candidate?.toList) ++ new) ++ rest).Perm
        ((s.residency.residents ++ outOf s.calls) ++ new) := by
      refine List.Perm.trans ?_ (((ho.append_left _).append_right _).symm)
      simp only [append_assoc]
      exact (perm_append_comm.append_left _).append_left _
    refine (((hat res stage).append_left _).subperm).trans ?_
    rw [← append_assoc]
    exact ((subperm_append_right rest).mpr hsub).trans hback.subperm
  have hl := hall.length_le
  obtain ⟨kept, hperm, hsublist⟩ := hall
  have hcount := Runs.countP_set_add hc (·.stage.holds) { call with stage }
  have hslots := h.slots
  simp only [length_append] at hl
  refine ⟨hperm.nodup_iff.mp (hn.sublist hsublist), ?_, ?_⟩
  · simp only [State.at] at hl ⊢
    omega
  · simp only [State.at] at hcount ⊢
    omega

/-- A call moves on without a new thread and without a new slot. -/
theorem Inv.at_same (h : Inv capacity s) (hc : s.calls[index]? = some call) {res : V2ResidencyState θ}
    {stage : Stage θ} (hsub : (res.residents ++ stage.candidate?.toList).Subperm
      (s.residency.residents ++ call.stage.candidate?.toList))
    (hp : res.pendingSlots = s.residency.pendingSlots) (hs : call.stage.holds = stage.holds) :
    Inv capacity (s.at index call res stage) := by
  have hf := h.fits
  refine h.at hc [] (by simpa using h.nodup) (by simpa using hsub) ?_ (by rw [hp, hs])
  rw [hp]
  simp only [length_nil]
  omega

theorem Inv.onCall (h : Inv capacity s) {f : Call θ → State θ}
    (hf : ∀ call, s.calls[index]? = some call → Inv capacity (f call)) : Inv capacity (onCall s index f) := by
  rw [Residency.onCall]
  split
  · rename_i call hc
    exact hf call hc
  · exact h

/-- A slot that ends leaves its place to the thread it becomes. -/
theorem Inv.settle (h : Inv capacity s) (hc : s.calls[index]? = some call) {res : V2ResidencyState θ} (new : List θ)
    (hn : ((s.residency.residents ++ outOf s.calls) ++ new).Nodup) (hl : new.length ≤ 1)
    (hr : res.residents = s.residency.residents ++ new) (hp : res.pendingSlots = s.residency.pendingSlots - 1) :
    Inv capacity (settle s index call res) := by
  rw [Residency.settle]
  split
  · rename_i hs
    have hh : 0 < s.residency.pendingSlots := by
      rw [h.slots, countP_pos_iff]
      exact ⟨call, mem_of_getElem? hc, by rw [hs]; rfl⟩
    have hf := h.fits
    refine h.at hc new hn ?_ (by omega) ?_
    · rw [hr, hs]
      simp [Stage.candidate?, List.Subperm.refl]
    · rw [hs, hp]
      exact Nat.sub_add_cancel hh
  · exact h

end Calls

section Steps

variable {s : State θ} {call : Call θ}

theorem Inv.advance (h : Inv capacity s) (hc : s.calls[index]? = some call)
    (hr : LeavesRoom capacity s (.advance index)) : Inv capacity (advance capacity s index call) := by
  have hself : ∀ {stage : Stage θ}, stage.candidate? = none → call.stage.candidate? = none →
      (s.residency.residents ++ stage.candidate?.toList).Subperm
        (s.residency.residents ++ call.stage.candidate?.toList) := by
    intro stage hs hcand
    rw [hs, hcand]
  rw [Residency.advance]
  split
  · rename_i hs
    rw [V2ResidencyState.tryReservePendingSlot]
    by_cases hge : s.residency.residents.length + s.residency.pendingSlots ≥ capacity
    · rw [if_pos hge]
      exact h.at_same hc (hself rfl (by rw [hs]; rfl)) rfl (by rw [hs]; rfl)
    · rw [if_neg hge]
      have hroom := hr call hc (by rw [hs]; rfl) (Nat.lt_of_not_le hge)
      refine h.at hc [] (by simpa using h.nodup) ?_ ?_ (by rw [hs]; rfl)
      · rw [append_nil]
        exact hself rfl (by rw [hs]; rfl)
      · simp only [length_nil]
        omega
  · rename_i hs
    exact h.at_same hc (hself rfl (by rw [hs]; rfl)) rfl (by rw [hs]; rfl)
  · rename_i hs
    exact h.at_same hc (hself rfl (by rw [hs]; rfl)) rfl (by rw [hs]; rfl)
  · rename_i left hs
    have hp := popFrom_perm call.protectedThreadId s.residency.residents.length s.residency.residents
    rw [V2ResidencyState.popLruCandidate]
    generalize V2ResidencyState.popFrom call.protectedThreadId s.residency.residents.length
      s.residency.residents = popped at hp
    obtain ⟨cand, residents⟩ := popped
    cases cand with
    | none => exact h.at_same hc (by rw [hs]; simpa [Stage.candidate?] using hp.subperm) rfl (by rw [hs]; rfl)
    | some cand =>
      refine h.at_same hc ?_ rfl (by rw [hs]; rfl)
      rw [hs]
      simp only [Stage.candidate?, Option.toList_none, append_nil, Option.toList_some]
      exact (perm_append_comm.trans hp).subperm
  · exact h

theorem Inv.answer (h : Inv capacity s) (hc : s.calls[index]? = some call) (out : Outcome) :
    Inv capacity (answer s index call out) := by
  rw [Residency.answer]
  split
  · rename_i cand left hs
    have hown : cand ∉ s.residency.residents := by
      obtain ⟨rest, ho, -⟩ := outOf_at hc
      intro hm
      refine (nodup_append.mp h.nodup).2.2 cand hm cand (ho.mem_iff.mpr ?_) rfl
      rw [hs]
      exact mem_cons_self
    cases out with
    | kept =>
      refine h.at_same hc ?_ rfl (by rw [hs]; rfl)
      rw [hs]
      simp only [V2ResidencyState.touch, touchResident_of_not_mem hown, Stage.candidate?, Option.toList_none,
        append_nil, Option.toList_some]
      exact List.Subperm.refl _
    | _ =>
      refine h.at_same hc ?_ rfl (by rw [hs]; rfl)
      simp only [Stage.candidate?, Option.toList_none, append_nil]
      exact (sublist_append_left _ _).subperm
  · exact h

theorem Inv.step (h : Inv capacity s) {a : Action θ} (hproper : Proper s a) (hf : LeavesRoom capacity s a) :
    Inv capacity (step capacity s a) := by
  have hfits := h.fits
  cases a with
  | reserveSlot protectedThreadId =>
    have ho : outOf (s.calls ++ [⟨protectedThreadId, .reserving⟩]) = outOf s.calls := by simp [outOf, Stage.candidate?]
    refine ⟨?_, ?_, ?_⟩
    · exact ho.symm ▸ h.nodup
    · exact ho.symm ▸ h.fits
    · simp [Residency.step, h.slots, Stage.holds]
  | advance idx => exact h.onCall fun call hc => h.advance hc hf
  | answer idx out => exact h.onCall fun call hc => h.answer hc out
  | commit idx threadId =>
    have hnew : threadId ∉ s.residency.residents ++ outOf s.calls := hproper
    refine h.onCall fun call hc => h.settle hc [threadId] ?_ (Nat.le_refl _) ?_ rfl
    · rw [← concat_eq_append]
      exact List.Nodup.concat hnew h.nodup
    · exact touchResident_of_not_mem fun hm => hnew (mem_append_left _ hm)
  | drop idx =>
    exact h.onCall fun call hc => h.settle hc [] (by simpa using h.nodup) (Nat.zero_le _)
      (append_nil _).symm rfl
  | forget threadId =>
    have hl := length_filter_le (· ≠ threadId) s.residency.residents
    refine ⟨h.nodup.sublist (filter_sublist.append_right _), ?_, h.slots⟩
    simp only [Residency.step, V2ResidencyState.remove]
    omega
  | touch threadId =>
    have hp := touchResident_perm (nodup_append.mp h.nodup).1 hproper
    refine ⟨(hp.append_right _).nodup_iff.mpr h.nodup, ?_, h.slots⟩
    simp only [Residency.step, V2ResidencyState.touch, hp.length_eq]
    exact hfits

theorem Inv.within (h : Inv capacity s) :
    Within capacity s.residency ∧ Within capacity (allPutBack capacity s).residency := by
  have hf := h.fits
  obtain ⟨hp, hr⟩ := allPutBack_spec capacity h.nodup
  have hl := hr.length_eq
  rw [length_append] at hl
  exact ⟨⟨(nodup_append.mp h.nodup).1, by omega⟩, hr.nodup_iff.mpr h.nodup, by omega⟩

/-- A reservation that leaves no room takes the place of a candidate that may be put back. -/
theorem Inv.not_within (h : Inv capacity s) {a : Action θ} (hf : ¬LeavesRoom capacity s a) :
    ¬Within capacity (allPutBack capacity (Residency.step capacity s a)).residency := by
  cases a with
  | advance idx =>
    simp only [LeavesRoom, not_forall] at hf
    obtain ⟨call, hc, hs, hlt, hroom⟩ := hf
    rw [Option.mem_def] at hc
    obtain ⟨protectedThreadId, stage⟩ := call
    cases stage with
    | reserving =>
      obtain ⟨rest, ho, hat⟩ := outOf_at hc
      generalize hs' : s.at idx ⟨protectedThreadId, .reserving⟩
        { s.residency with pendingSlots := s.residency.pendingSlots + 1 } .holding = after
      have hstage : Residency.step capacity s (.advance idx) = after := by
        simp only [Residency.step, Residency.onCall, hc, Residency.advance,
          V2ResidencyState.tryReservePendingSlot, if_neg (Nat.not_le.mpr hlt), hs']
      have hout : (outOf after.calls).Perm (outOf s.calls) := hs' ▸ (hat _ .holding).trans ho.symm
      have hsame : after.residency.residents = s.residency.residents ∧
        after.residency.pendingSlots = s.residency.pendingSlots + 1 := hs' ▸ ⟨rfl, rfl⟩
      have hn : (after.residency.residents ++ outOf after.calls).Nodup := by
        rw [hsame.1]
        exact (hout.append_left _).nodup_iff.mpr h.nodup
      obtain ⟨hp, hr⟩ := allPutBack_spec capacity hn
      have hl := hr.length_eq
      rw [length_append, hout.length_eq, hsame.1] at hl
      intro hw
      have hfits := hw.fits
      rw [hstage] at hfits
      omega
    | _ => cases hs
  | _ => exact absurd trivial hf

end Steps

theorem nodup_step (capacity : Nat) (s : State θ) (a : Action θ) (h : s.residency.residents.Nodup) :
    (step capacity s a).residency.residents.Nodup := by
  have hcall : ∀ index (f : Call θ → State θ), (∀ call, (f call).residency.residents.Nodup) →
      (onCall s index f).residency.residents.Nodup := by
    intro index f hf
    rw [onCall]
    split
    · exact hf _
    · exact h
  have hsettle : ∀ index call (res : V2ResidencyState θ), res.residents.Nodup →
      (settle s index call res).residency.residents.Nodup := by
    intro index call res hr
    rw [settle]
    split
    · exact hr
    · exact h
  cases a with
  | reserveSlot => exact h
  | advance index =>
    refine hcall index _ fun call => ?_
    have hp := popFrom_perm call.protectedThreadId s.residency.residents.length s.residency.residents
    have hpop := (nodup_append.mp (hp.nodup_iff.mpr h)).2.1
    rw [advance]
    split
    · rw [V2ResidencyState.tryReservePendingSlot]
      by_cases hge : s.residency.residents.length + s.residency.pendingSlots ≥ capacity
      · rw [if_pos hge]
        exact h
      · rw [if_neg hge]
        exact h
    · exact h
    · exact h
    · rw [V2ResidencyState.popLruCandidate]
      generalize V2ResidencyState.popFrom call.protectedThreadId s.residency.residents.length
        s.residency.residents = popped at hpop
      obtain ⟨cand, residents⟩ := popped
      cases cand <;> exact hpop
    · exact h
  | answer index outcome =>
    refine hcall index _ fun call => ?_
    rw [answer]
    split
    · cases outcome with
      | kept => exact nodup_touchResident h
      | _ => exact h
    · exact h
  | commit index threadId => exact hcall index _ fun call => hsettle index call _ (nodup_touchResident h)
  | drop index => exact hcall index _ fun call => hsettle index call _ h
  | forget threadId => exact h.filter _
  | touch threadId => exact nodup_touchResident h

/-- No thread is ever resident twice. In a run of the callers, the loaded sub-agents stay within the capacity whatever
the pending unload attempts come to, exactly if each reservation leaves room for their candidates. -/
theorem within_capacity_iff (capacity : Nat) (actions : List (Action θ)) :
    Runs.Every (step capacity) (fun s => s.residency.residents.Nodup) {} actions ∧
    (Runs.Each (step capacity) Proper {} actions →
      (Runs.Every (step capacity)
          (fun s => Within capacity s.residency ∧ Within capacity (allPutBack capacity s).residency) {} actions ↔
        Runs.Each (step capacity) (LeavesRoom capacity) {} actions)) := by
  constructor
  · exact Runs.every_of_invariant (nodup_step capacity) nodup_nil actions
  · exact fun hp => Runs.every_iff_each (Inv capacity) (fun _ h => h.within) (fun _ _ h ha hf => h.step ha hf)
      (fun _ _ h _ hf hw => h.not_within hf hw.2) (s := {}) ⟨nodup_nil, Nat.zero_le _, rfl⟩ hp

/-- The only resident is unloaded for a second call, which then gets its slot. -/
def unloadFirst : List (Action Nat) :=
  [.reserveSlot none, .advance 0, .commit 0 7, .reserveSlot none, .advance 1, .advance 1, .advance 1,
    .answer 1 .unloaded, .advance 1]

theorem unloadFirst_within :
    (Runs.run (step 1) {} unloadFirst).residency.pendingSlots = 1 ∧ Runs.Every (step 1)
      (fun s => Within 1 s.residency ∧ Within 1 (allPutBack 1 s).residency) {} unloadFirst :=
  ⟨by decide, ((within_capacity_iff 1 unloadFirst).2 (by decide)).mpr (by decide)⟩

/-- The only resident is taken out to be unloaded, a second call takes the room, and the resident is put back. -/
def putBack : List (Action Nat) :=
  [.reserveSlot none, .advance 0, .commit 0 7, .reserveSlot none, .advance 1, .advance 1, .advance 1, .reserveSlot none,
    .advance 2, .answer 1 .kept]

theorem putBack_over_capacity :
    (Runs.run (step 1) {} putBack).residency.residents = [7] ∧ (Runs.run (step 1) {} putBack).residency.pendingSlots = 1 ∧
      ¬Runs.Every (step 1) (fun s => Within 1 s.residency) {} putBack := by
  refine ⟨rfl, rfl, fun he => ?_⟩
  have hl : Within 1 (Runs.run (step 1) {} putBack).residency := he.2.2.2.2.2.2.2.2.2.2
  exact absurd hl.fits (by decide)

end Residency
