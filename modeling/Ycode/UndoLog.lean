import Mathlib

/-!
# Logs that take entries back

A log pushes entries and now and then takes its newest ones back. Read oldest to newest it is a
stack. Read newest to oldest it needs only the number of entries still to be skipped. The two
readings leave the same entries, also when that number saturates at a limit that the log's pushes
do not exceed.
-/
namespace UndoLog

open List

variable {α : Type}

inductive Op (α : Type) where
  | push (a : α)
  | pop (n : Nat)

def Op.isPush : Op α → Bool
  | .push _ => true
  | .pop _ => false

/-- One operation on the stack of surviving entries, newest first. -/
def step (stack : List α) : Op α → List α
  | .push a => a :: stack
  | .pop n => stack.drop n

def run (stack : List α) (ops : List (Op α)) : List α := ops.foldl step stack

/-- The surviving entries, newest first, of a log that is read newest to oldest. -/
def back (limit : Nat) : Nat → List (Op α) → List α
  | _, [] => []
  | 0, .push a :: older => a :: back limit 0 older
  | pending + 1, .push _ :: older => back limit pending older
  | pending, .pop n :: older => back limit (min (pending + n) limit) older

@[simp] theorem run_nil (stack : List α) : run stack [] = stack := rfl

@[simp] theorem run_push : run stack (.push a :: ops) = run (a :: stack) ops := rfl

@[simp] theorem run_pop : run stack (.pop n :: ops) = run (stack.drop n) ops := rfl

theorem run_append (stack : List α) (ops more : List (Op α)) :
    run stack (ops ++ more) = run (run stack ops) more := foldl_append ..

theorem back_pop : back limit pending (.pop n :: older) = back limit (min (pending + n) limit) older := by
  cases pending <;> rfl

theorem length_run_le (stack : List α) (ops : List (Op α)) :
    (run stack ops).length ≤ stack.length + ops.countP Op.isPush := by
  induction ops generalizing stack with
  | nil => exact Nat.le_refl _
  | cons op ops ih =>
    cases op with
    | push a =>
      rw [run_push, countP_cons_of_pos rfl]
      have h := ih (a :: stack)
      rw [length_cons] at h
      omega
    | pop n =>
      rw [run_pop, countP_cons_of_neg (by simp [Op.isPush])]
      have h := ih (stack.drop n)
      rw [length_drop] at h
      omega

/-- Both readings of a log leave the same entries. -/
theorem back_eq_run (ops : List (Op α)) (h : ops.countP Op.isPush ≤ limit) (pending : Nat) :
    back limit pending ops.reverse = (run [] ops).drop pending := by
  induction ops using List.reverseRecOn generalizing pending with
  | nil => simp [back]
  | append_singleton ops op ih =>
    rw [countP_append] at h
    have ho : ops.countP Op.isPush ≤ limit := by omega
    rw [reverse_append, reverse_singleton, singleton_append, run_append]
    cases op with
    | push a =>
      cases pending with
      | _ => rw [back, ih ho]; rfl
    | pop n =>
      rw [back_pop, ih ho, run_pop, run_nil, drop_drop]
      by_cases hle : pending + n ≤ limit
      · rw [Nat.min_eq_left hle, Nat.add_comm]
      · -- more is taken back than was ever pushed
        have hl := length_run_le [] ops
        rw [length_nil, Nat.zero_add] at hl
        rw [drop_eq_nil_of_le (by omega), drop_eq_nil_of_le (by omega)]

theorem mem_run (h : a ∈ run stack ops) : a ∈ stack ∨ .push a ∈ ops := by
  induction ops generalizing stack with
  | nil => exact .inl h
  | cons op ops ih =>
    cases op with
    | push b =>
      cases ih h with
      | inl hm =>
        cases mem_cons.mp hm with
        | inl he => exact .inr (by rw [he]; exact mem_cons_self)
        | inr hs => exact .inl hs
      | inr ho => exact .inr (mem_cons_of_mem _ ho)
    | pop n =>
      cases ih h with
      | inl hm => exact .inl (mem_of_mem_drop hm)
      | inr ho => exact .inr (mem_cons_of_mem _ ho)

/-- What survives above a surviving entry does not depend on what lies below it. -/
theorem run_above (ha : a ∉ stack) (hn : .push a ∉ ops) (h : a ∈ run (top ++ a :: stack) ops) :
    run (top ++ a :: stack) ops = run (top ++ [a]) ops ++ stack := by
  induction ops generalizing top with
  | nil => simp
  | cons op ops ih =>
    rw [mem_cons, not_or] at hn
    cases op with
    | push b => exact ih hn.2 (show a ∈ run ((b :: top) ++ a :: stack) ops from h)
    | pop n =>
      rw [run_pop] at h ⊢
      rw [run_pop]
      by_cases hle : n ≤ top.length
      · rw [drop_append_of_le_length hle] at h ⊢
        rw [drop_append_of_le_length hle]
        exact ih hn.2 h
      · have hd : (top ++ a :: stack).drop n <:+ stack := by
          rw [drop_append, drop_eq_nil_of_le (by omega), drop_cons (by omega)]
          exact drop_suffix ..
        rcases mem_run h with hm | hm
        · exact absurd (hd.subset hm) ha
        · exact absurd hm hn.2

def Op.map (f : α → α) : Op α → Op α
  | .push a => .push (f a)
  | .pop n => .pop n

theorem run_map (f : α → α) (stack : List α) (ops : List (Op α)) :
    run (stack.map f) (ops.map (Op.map f)) = (run stack ops).map f := by
  induction ops generalizing stack with
  | nil => rfl
  | cons op ops ih =>
    cases op with
    | push a => exact ih (a :: stack)
    | pop n =>
      rw [map_cons, Op.map, run_pop, run_pop, ← map_drop]
      exact ih _

end UndoLog
