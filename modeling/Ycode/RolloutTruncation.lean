import Ycode.RolloutReplay
import Ycode.UndoLog

/-!
# Cutting a rollout at a turn

A fork keeps the last turns of a rollout, and a backtrack keeps what stands in front of a user
message. Both cut the raw record, which still holds turns that were rolled back and the markers that
rolled them back; the positions to cut at are those that survive the markers.
-/
namespace RolloutTruncation

open RustStr Transcript History RolloutReplay UndoLog List

/-- What an item does to the position lists: it is pushed onto either, or rolls turns back. -/
inductive Mark where
  | turn (rollback fork : Bool)
  | rolledBack (numTurns : Nat)

structure Positions where
  rollback : List Nat
  fork : List Nat

/-- A marker removes what stands at or behind the earliest turn that it takes back. The subtraction
stops at zero: a marker for more turns than there are starts at the first. -/
def Positions.step (idx : Nat) (p : Positions) : Mark → Positions
  | .turn rollback fork =>
    ⟨if rollback then p.rollback ++ [idx] else p.rollback, if fork then p.fork ++ [idx] else p.fork⟩
  | .rolledBack numTurns =>
    if numTurns = 0 then p
    else match p.rollback[p.rollback.length - numTurns]? with
      | none => p
      | some start => ⟨p.rollback.take (p.rollback.length - numTurns), p.fork.filter (· < start)⟩

def scan (idx : Nat) (p : Positions) : List Mark → Positions
  | [] => p
  | mark :: marks => scan (idx + 1) (p.step idx mark) marks

section Items

variable {J : Type} (fromStr : Str → Option InterAgentCommunication)

def isRealUserMessageBoundary : ResponseItem → Bool
  | .message _ role content _ _ => role == "user".toList && (parseUserMessage content).isSome
  | _ => false

def isTriggerTurnBoundary : ResponseItem → Bool
  | .message _ role content _ _ =>
    role == "assistant".toList && isMessageContent (fun text => (fromStr text).any (·.triggerTurn)) content
  | _ => false

/-- The delivery of a message that its own record has already announced. -/
def hasDeliveryMetadata (previous : Option (RolloutItem J)) : ResponseItem → Bool
  | .agentMessage .. => match previous with
    | some (.interAgentCommunicationMetadata _) => true
    | _ => false
  | _ => false

def forkMark (previous : Option (RolloutItem J)) : RolloutItem J → Mark
  | .responseItem item =>
    .turn (isUserTurnBoundary (fun text => (fromStr text).isSome) item && !hasDeliveryMetadata previous item)
      (isRealUserMessageBoundary item || isTriggerTurnBoundary fromStr item)
  | .interAgentCommunication communication => .turn true communication.triggerTurn
  | .interAgentCommunicationMetadata triggerTurn => .turn true triggerTurn
  | .eventMsg (.threadRolledBack numTurns) => .rolledBack numTurns.toNat
  | _ => .turn false false

def forkMarks (previous : Option (RolloutItem J)) : List (RolloutItem J) → List Mark
  | [] => []
  | item :: items => forkMark fromStr previous item :: forkMarks (some item) items

def forkTurnPositionsInRollout (items : List (RolloutItem J)) : List Nat :=
  (scan 0 ⟨[], []⟩ (forkMarks fromStr none items)).fork

def userMark : RolloutItem J → Mark
  | .responseItem item => .turn (isRealUserMessageBoundary item) false
  | .eventMsg (.threadRolledBack numTurns) => .rolledBack numTurns.toNat
  | _ => .turn false false

/-- One list only: a marker shortens it by the turns it takes back. -/
def userMessagePositionsInRollout (items : List (RolloutItem J)) : List Nat :=
  (scan 0 ⟨[], []⟩ (items.map userMark)).rollback

def truncateRolloutBeforeNthUserMessageFromStart (items : List (RolloutItem J)) (nFromStart : Nat) :
    List (RolloutItem J) :=
  match (userMessagePositionsInRollout items)[nFromStart]? with
  | none => items
  | some cutIdx => items.take cutIdx

def truncateRolloutToLastNForkTurns (items : List (RolloutItem J)) (nFromEnd : Nat) : List (RolloutItem J) :=
  if nFromEnd = 0 then []
  else
    let positions := forkTurnPositionsInRollout fromStr items
    match positions[positions.length - nFromEnd]? with
    | none => []
    | some keepIdx => items.drop keepIdx

end Items

/-- The log behind both lists: rollback positions, each with whether a fork may start there. -/
def op : Mark × Nat → List (Op (Nat × Bool))
  | (.turn true fork, idx) => [.push (idx, fork)]
  | (.turn false _, _) => []
  | (.rolledBack numTurns, _) => [.pop numTurns]

def ops (idx : Nat) (marks : List Mark) : List (Op (Nat × Bool)) := (marks.zipIdx idx).flatMap op

structure Reads (idx : Nat) (stack : List (Nat × Bool)) (p : Positions) : Prop where
  rollback : p.rollback = (stack.map Prod.fst).reverse
  fork : p.fork = ((stack.filter Prod.snd).map Prod.fst).reverse
  below : ∀ e ∈ stack, e.1 < idx
  sorted : stack.Pairwise fun a b => b.1 < a.1

/-- The earliest turn that a marker takes back is the last entry that it pops. -/
theorem Reads.rolledBack (h : Reads idx stack p) (n : Nat) :
    Reads (idx + 1) (stack.drop n) (p.step idx (.rolledBack n)) := by
  have hb : ∀ e ∈ stack, e.1 < idx + 1 := fun e he => Nat.lt_succ_of_lt (h.below e he)
  by_cases hn : n = 0
  · subst hn
    exact ⟨h.rollback, h.fork, hb, h.sorted⟩
  rcases eq_nil_or_concat' (stack.take n) with ht | ⟨taken, start, ht⟩
  · have hs : stack = [] := (take_eq_nil_iff.mp ht).resolve_left hn
    subst hs
    have hp : p.rollback = [] := h.rollback
    simp only [Positions.step, if_neg hn, hp, getElem?_nil, drop_nil]
    exact ⟨hp, h.fork, by simp, .nil⟩
  · obtain ⟨rest, hd⟩ : ∃ rest, stack.drop n = rest := ⟨_, rfl⟩
    have hl : p.rollback.length - n = rest.length := by simp [h.rollback, ← hd]
    have hs : stack = taken ++ start :: rest := by
      rw [← take_append_drop n stack, ht, hd, append_assoc, singleton_append]
    have hsorted := h.sorted
    rw [hs, pairwise_append, pairwise_cons] at hsorted
    obtain ⟨-, ⟨hrest, hkept⟩, htail⟩ := hsorted
    have hr : p.rollback = (rest.map Prod.fst).reverse ++ start.1 :: (taken.map Prod.fst).reverse := by
      simp [h.rollback, hs]
    have hf : stack.filter (fun e => e.1 < start.1) = rest := by
      rw [hs, filter_append, filter_eq_nil_iff.mpr, filter_cons_of_neg (by simp), filter_eq_self.mpr, nil_append]
      · exact fun e he => decide_eq_true (hrest e he)
      · intro e he
        have := htail e he start mem_cons_self
        simp only [decide_eq_true_eq]
        omega
    have hg : p.rollback[rest.length]? = some start.1 := by
      rw [hr, getElem?_append_right (by simp)]
      simp
    simp only [Positions.step, if_neg hn, hl, hd, hg]
    refine ⟨?_, ?_, fun e he => hb e (by simp [hs, he]), hkept⟩
    · rw [hr, take_left' (by simp)]
    · rw [h.fork, filter_reverse, filter_map, filter_filter, ← hf, filter_filter]
      simp [Bool.and_comm]

theorem Reads.step (h : Reads idx stack p) (mark : Mark) (hm : mark ≠ .turn false true) :
    Reads (idx + 1) (run stack (ops idx [mark])) (p.step idx mark) := by
  cases mark with
  | rolledBack n => exact h.rolledBack n
  | turn rollback fork =>
    have hb : ∀ e ∈ stack, e.1 < idx + 1 := fun e he => Nat.lt_succ_of_lt (h.below e he)
    cases rollback with
    | false =>
      cases fork with
      | false => exact ⟨h.rollback, h.fork, hb, h.sorted⟩
      | true => exact absurd rfl hm
    | true =>
      change Reads (idx + 1) ((idx, fork) :: stack) _
      refine ⟨by simp [Positions.step, h.rollback], ?_, ?_, pairwise_cons.mpr ⟨h.below, h.sorted⟩⟩
      · cases fork <;> simp [Positions.step, h.fork]
      · exact forall_mem_cons.mpr ⟨Nat.lt_succ_self idx, hb⟩

theorem ops_append (idx : Nat) (pre back : List Mark) :
    ops idx (pre ++ back) = ops idx pre ++ ops (idx + pre.length) back := by
  rw [ops, zipIdx_append, flatMap_append, ← ops, ← ops]

theorem scan_reads (h : Reads idx stack p) (hm : .turn false true ∉ marks) :
    Reads (idx + marks.length) (run stack (ops idx marks)) (scan idx p marks) := by
  induction marks generalizing idx stack p with
  | nil => exact h
  | cons mark marks ih =>
    rw [← singleton_append, ops_append, run_append, length_append, ← Nat.add_assoc]
    exact ih (h.step mark fun he => hm (by simp [he])) fun hmem => hm (mem_cons_of_mem _ hmem)

theorem ops_shift (d : Nat) (marks : List Mark) :
    ops d marks = (ops 0 marks).map (Op.map fun e => (e.1 + d, e.2)) := by
  rw [ops, zipIdx_eq_map_add, ops, flatMap_map, map_flatMap]
  refine flatMap_congr fun e _ => ?_
  obtain ⟨mark, idx⟩ := e
  cases mark with
  | rolledBack n => rfl
  | turn rollback fork => cases rollback <;> simp [op, Op.map, Nat.add_comm]

theorem mem_ops (h : .push (k, fork) ∈ ops idx marks) : idx ≤ k ∧ marks[k - idx]? = some (.turn true fork) := by
  obtain ⟨⟨mark, i⟩, hm, ho⟩ := mem_flatMap.mp h
  have hk := mem_zipIdx_iff_le_and_getElem?_sub.mp hm
  cases mark with
  | rolledBack n => simp [op] at ho
  | turn rollback fork' =>
    cases rollback with
    | false => cases ho
    | true =>
      cases mem_singleton.mp ho
      exact hk

/-- The surviving turns of a rollout, newest first. -/
def log (marks : List Mark) : List (Nat × Bool) := run [] (ops 0 marks)

theorem reads_log (hm : .turn false true ∉ marks) : Reads (0 + marks.length) (log marks) (scan 0 ⟨[], []⟩ marks) :=
  scan_reads ⟨rfl, rfl, by simp, .nil⟩ hm

theorem lt_of_mem_log (h : e ∈ log marks) : e.1 < marks.length :=
  (List.getElem?_eq_some_iff.mp (mem_ops ((mem_run h).resolve_left (by simp))).2).1

/-- Where a turn survives, the log falls apart into that of the front and that of the rest. -/
theorem log_cut (h : (k, fork) ∈ log marks) : marks[k]? = some (.turn true fork) ∧
    log marks = (log (marks.drop k)).map (fun e => (e.1 + k, e.2)) ++ log (marks.take k) := by
  have hk : marks[k]? = some (.turn true fork) := (mem_ops ((mem_run h).resolve_left (by simp))).2
  obtain ⟨hl, hm⟩ := List.getElem?_eq_some_iff.mp hk
  have hlen : (marks.take k).length = k := length_take_of_le hl.le
  have hf : (k, fork) ∉ log (marks.take k) := fun hm => (lt_of_mem_log hm).ne hlen.symm
  have hb : .push (k, fork) ∉ ops (k + 1) (marks.drop (k + 1)) := fun hm => by
    have := (mem_ops hm).1
    omega
  have hs : log marks = run (log (marks.take k)) (ops k (marks.drop k)) := by
    rw [log, ← take_append_drop k marks, ops_append, run_append, hlen, Nat.zero_add, take_append_drop, log]
  have hd : ops k (marks.drop k) = .push (k, fork) :: ops (k + 1) (marks.drop (k + 1)) := by
    rw [drop_eq_getElem_cons hl, hm]
    rfl
  have hr : (log (marks.drop k)).map (fun e => (e.1 + k, e.2)) = run [] (ops k (marks.drop k)) := by
    rw [ops_shift, log, ← run_map]
    rfl
  rw [hs, hd] at h
  rw [hr, hs, hd]
  exact ⟨hk, run_above hf hb (show _ ∈ run ([] ++ _ :: _) _ from h)⟩

/-- In an ascending list, `k` stands behind exactly what is smaller. -/
theorem length_of_cut {pre back : List Nat} (h : (pre ++ back).Pairwise (· < ·)) (hf : ∀ x ∈ pre, x < k)
    (hb : ∀ x ∈ back, k ≤ x) (hj : (pre ++ back)[j]? = some k) : pre.length = j := by
  obtain ⟨hl, he⟩ := List.getElem?_eq_some_iff.mp hj
  rcases Nat.lt_trichotomy j pre.length with hlt | heq | hg
  · rw [getElem_append_left hlt] at he
    exact absurd (hf k (he ▸ getElem_mem hlt)) (Nat.lt_irrefl k)
  · exact heq.symm
  · have hlt := pairwise_iff_getElem.mp h pre.length j (by omega) hl hg
    rw [he, getElem_append_right le_rfl] at hlt
    exact absurd (hb _ (getElem_mem _)) (Nat.not_le.mpr hlt)

/-- The surviving turns of a kind, oldest first. -/
def turns (q : Bool → Bool) (marks : List Mark) : List Nat :=
  (((log marks).filter fun e => q e.2).map Prod.fst).reverse

/-- Cutting at a surviving turn keeps the turns in front of it or those from it on. -/
theorem turns_cut (hm : .turn false true ∉ marks) (h : (turns q marks)[j]? = some k) :
    (∃ fork, marks[k]? = some (.turn true fork)) ∧ turns q (marks.take k) = (turns q marks).take j ∧
      (turns q (marks.drop k)).map (· + k) = (turns q marks).drop j := by
  obtain ⟨⟨k, fork⟩, hmem, rfl⟩ := mem_map.mp (mem_reverse.mp (mem_of_getElem? h))
  obtain ⟨hk, hlog⟩ := log_cut (mem_filter.mp hmem).1
  have hsplit : turns q marks = turns q (marks.take k) ++ (turns q (marks.drop k)).map (· + k) := by
    simp [turns, hlog, filter_map, Function.comp_def]
  have hs : (turns q marks).Pairwise (· < ·) := by
    exact pairwise_reverse.mpr (((reads_log hm).sorted.sublist filter_sublist).map _ fun _ _ h => h)
  have hf : ∀ x ∈ turns q (marks.take k), x < k := by
    intro x hx
    obtain ⟨e, he, rfl⟩ := mem_map.mp (mem_reverse.mp hx)
    have := lt_of_mem_log (mem_filter.mp he).1
    rw [length_take] at this
    omega
  rw [hsplit] at h hs ⊢
  have hl := length_of_cut hs hf (by simp) h
  exact ⟨⟨fork, hk⟩, (take_left' hl).symm, (drop_left' hl).symm⟩

theorem isMessageContent_mono {f g : Str → Bool} (hf : ∀ text, f text = true → g text = true)
    (h : isMessageContent f content = true) : isMessageContent g content = true := by
  rw [isMessageContent.eq_def] at h ⊢
  split at h
  · exact hf _ h
  · exact hf _ h
  · cases h

section Cuts

variable {J : Type} (fromStr : Str → Option InterAgentCommunication)

/-- A turn that a fork may start at can be rolled back. -/
theorem forkMark_ne (prev : Option (RolloutItem J)) (item : RolloutItem J) :
    forkMark fromStr prev item ≠ .turn false true := by
  intro h
  cases item with
  | responseItem item =>
    obtain ⟨hr, hf⟩ := Mark.turn.inj h
    cases item with
    | message _ role txt =>
      rw [Bool.or_eq_true, isRealUserMessageBoundary, isTriggerTurnBoundary, Bool.and_eq_true, Bool.and_eq_true] at hf
      simp only [isUserTurnBoundary, hasDeliveryMetadata, Bool.not_false, Bool.and_true, Bool.or_eq_false_iff] at hr
      rcases hf with ⟨hroot, hp⟩ | ⟨hroot, ht⟩
      · rw [hroot, Bool.true_and, Bool.not_eq_false'] at hr
        simp [parseUserMessage, hr.1] at hp
      · rw [hroot, Bool.true_and, isMessageContent_mono (fun _ => Option.isSome_of_any) ht] at hr
        cases hr.2
    | _ => cases hf
  | eventMsg ev => cases ev <;> cases h
  | _ => cases h

/-- Only a delivered message depends on the item in front of it, and it starts no turn. -/
theorem forkMark_none {item : RolloutItem J} (h : forkMark fromStr previous item = .turn true fork) :
    forkMark fromStr none item = .turn true fork := by
  cases item with
  | responseItem item =>
    simp only [forkMark, Mark.turn.injEq, Bool.and_eq_true] at h ⊢
    refine ⟨⟨h.1.1, ?_⟩, h.2⟩
    cases item <;> rfl
  | eventMsg ev => cases ev <;> exact h
  | _ => exact h

theorem forkMarks_drop (prev : Option (RolloutItem J)) (xs : List (RolloutItem J)) (k : Nat) :
    ∃ last, (forkMarks fromStr prev xs).drop k = forkMarks fromStr last (xs.drop k) := by
  induction xs generalizing prev k with
  | nil => exact ⟨none, by simp [forkMarks]⟩
  | cons item xs ih =>
    cases k with
    | zero => exact ⟨prev, rfl⟩
    | succ k => exact ih (some item) k

theorem forkMarks_cut {xs : List (RolloutItem J)} (h : (forkMarks fromStr none xs)[k]? = some (.turn true fork)) :
    (forkMarks fromStr none xs).drop k = forkMarks fromStr none (xs.drop k) := by
  obtain ⟨prev, hd⟩ := forkMarks_drop fromStr none xs k
  have h₀ : ((forkMarks fromStr none xs).drop k)[0]? = _ := getElem?_drop.trans h
  rw [hd] at h₀ ⊢
  cases hi : xs.drop k with
  | nil => rfl
  | cons item rest =>
    rw [hi] at h₀
    have hf := Option.some.inj h₀
    rw [forkMarks, forkMarks, hf, forkMark_none fromStr hf]

theorem not_mem_forkMarks (prev : Option (RolloutItem J)) (items : List (RolloutItem J)) :
    .turn false true ∉ forkMarks fromStr prev items := by
  induction items generalizing prev with
  | nil => exact not_mem_nil
  | cons item items ih =>
    rw [forkMarks, mem_cons, not_or]
    exact ⟨(forkMark_ne fromStr prev item).symm, ih (some item)⟩

theorem forkTurnPositionsInRollout_eq (xs : List (RolloutItem J)) :
    forkTurnPositionsInRollout fromStr xs = turns id (forkMarks fromStr none xs) :=
  (reads_log (not_mem_forkMarks fromStr none xs)).fork

theorem not_mem_userMarks (xs : List (RolloutItem J)) : .turn false true ∉ xs.map userMark := by
  intro h
  obtain ⟨item, -, hi⟩ := mem_map.mp h
  cases item with
  | responseItem item => cases (Mark.turn.inj hi).2
  | eventMsg ev => cases ev <;> cases hi
  | _ => cases hi

theorem userMessagePositionsInRollout_eq (xs : List (RolloutItem J)) :
    userMessagePositionsInRollout xs = turns (fun _ => true) (xs.map userMark) := by
  rw [turns, filter_true]
  exact (reads_log (not_mem_userMarks xs)).rollback

/-- A cut keeps exactly the turns asked for: the last ones of a fork, with the positions shifted by the cut, or those
in front of a user message. Markers that stay behind the cut take none of them back. -/
theorem truncation_exact (items : List (RolloutItem J)) (n : Nat) :
    (∃ cut, truncateRolloutToLastNForkTurns fromStr items (n + 1) = items.drop cut ∧
      (forkTurnPositionsInRollout fromStr (items.drop cut)).map (· + cut) =
        (forkTurnPositionsInRollout fromStr items).drop ((forkTurnPositionsInRollout fromStr items).length - (n + 1))) ∧
    (n < (userMessagePositionsInRollout items).length →
      userMessagePositionsInRollout (truncateRolloutBeforeNthUserMessageFromStart items n) =
        (userMessagePositionsInRollout items).take n) := by
  constructor
  · rw [truncateRolloutToLastNForkTurns, if_neg (Nat.succ_ne_zero n)]
    generalize hp : forkTurnPositionsInRollout fromStr items = positions
    cases hk : positions[positions.length - (n + 1)]? with
    | none =>
      refine ⟨items.length, by simp [hk], ?_⟩
      rw [drop_length, drop_eq_nil_of_le (getElem?_eq_none_iff.mp hk)]
      rfl
    | some cut =>
      refine ⟨cut, by simp [hk], ?_⟩
      rw [← hp, forkTurnPositionsInRollout_eq] at hk ⊢
      obtain ⟨⟨fork, hm⟩, -, hd⟩ := turns_cut (not_mem_forkMarks fromStr none items) hk
      rw [forkTurnPositionsInRollout_eq, ← forkMarks_cut fromStr hm, hd]
  · intro hn
    obtain ⟨cut, hk⟩ : ∃ cut, (userMessagePositionsInRollout items)[n]? = some cut := ⟨_, getElem?_eq_getElem hn⟩
    rw [truncateRolloutBeforeNthUserMessageFromStart, hk]
    rw [userMessagePositionsInRollout_eq] at hk ⊢
    rw [userMessagePositionsInRollout_eq, map_take]
    exact (turns_cut (not_mem_userMarks items) hk).2.1

/-- To cut to some turns and then to fewer is to cut to the fewer at once. -/
theorem truncate_to_fewer (items : List (RolloutItem J)) (n k : Nat) :
    truncateRolloutToLastNForkTurns fromStr (truncateRolloutToLastNForkTurns fromStr items (n + k)) n =
      truncateRolloutToLastNForkTurns fromStr items n := by
  by_cases hn : n = 0
  · subst hn
    rfl
  simp only [truncateRolloutToLastNForkTurns, if_neg hn, if_neg (show n + k ≠ 0 by omega)]
  generalize hp : forkTurnPositionsInRollout fromStr items = positions
  obtain ⟨j, hj⟩ : ∃ j, positions.length - (n + k) = j := ⟨_, rfl⟩
  rw [hj]
  cases hk : positions[j]? with
  | none =>
    have hl := getElem?_eq_none_iff.mp hk
    obtain rfl : positions = [] := length_eq_zero_iff.mp (by omega)
    rfl
  | some cut =>
    have hd : (forkTurnPositionsInRollout fromStr (items.drop cut)).map (· + cut) = positions.drop j := by
      rw [← hp, forkTurnPositionsInRollout_eq] at hk ⊢
      obtain ⟨⟨fork, hm⟩, -, hd⟩ := turns_cut (not_mem_forkMarks fromStr none items) hk
      rw [forkTurnPositionsInRollout_eq, ← forkMarks_cut fromStr hm, hd]
    simp only
    generalize forkTurnPositionsInRollout fromStr (items.drop cut) = kept at hd ⊢
    have hl := congrArg List.length hd
    rw [length_map, length_drop] at hl
    -- the turn to keep is the same one, counted from the first cut
    have hg : kept[kept.length - n]?.map (· + cut) = positions[positions.length - n]? := by
      rw [← getElem?_map, hd, getElem?_drop, show j + (kept.length - n) = positions.length - n by omega]
    rw [← hg]
    cases kept[kept.length - n]? with
    | none => rfl
    | some keep => simp [drop_drop, Nat.add_comm]

end Cuts

end RolloutTruncation
