import Ycode.RustStr
import Ycode.SortedMap

/-!
# JSON values

Objects are maps in key order, so that equal values are equal trees. Numbers are an arbitrary type
with decidable equality.
-/
namespace JsonValue

open RustStr SortedMap

variable {N : Type}

inductive Value (N : Type) where
  | null
  | bool (b : Bool)
  | number (n : N)
  | string (s : Str)
  | array (items : List (Value N))
  | object (fields : List (Str × Value N))

abbrev Fields (N : Type) := List (Str × Value N)

/-- Induction over the objects of a value; arrays count as leaves. -/
theorem Value.objectInduction {P : Value N → Prop} (null : P .null) (bool : ∀ b, P (.bool b))
    (number : ∀ n, P (.number n)) (string : ∀ s, P (.string s)) (array : ∀ xs, P (.array xs))
    (object : ∀ fs, (∀ e ∈ fs, P e.2) → P (.object fs)) (v : Value N) : P v := by
  refine @Value.rec N P (fun _ => True) (fun fs => ∀ e ∈ fs, P e.2) (fun e => P e.2)
    null bool number string (fun xs _ => array xs) object
    trivial (fun _ _ _ _ => trivial) (fun e he => nomatch he) ?_ (fun _ _ hv => hv) v
  intro first rest hf hr
  rw [List.forall_mem_cons]
  exact ⟨hf, hr⟩

section Equality

variable [DecidableEq N]

mutual

def Value.beq : Value N → Value N → Bool
  | .null, .null => true
  | .bool a, .bool b => a == b
  | .number a, .number b => a == b
  | .string a, .string b => a == b
  | .array a, .array b => itemsBeq a b
  | .object a, .object b => fieldsBeq a b
  | _, _ => false

def itemsBeq : List (Value N) → List (Value N) → Bool
  | [], [] => true
  | a :: as, b :: bs => a.beq b && itemsBeq as bs
  | _, _ => false

def fieldsBeq : Fields N → Fields N → Bool
  | [], [] => true
  | (k, a) :: as, (l, b) :: bs => k == l && a.beq b && fieldsBeq as bs
  | _, _ => false

end

theorem Value.beq_iff (a b : Value N) : a.beq b = true ↔ a = b := by
  refine @Value.rec N (fun a => ∀ b, a.beq b = true ↔ a = b) (fun as => ∀ bs, itemsBeq as bs = true ↔ as = bs)
    (fun as => ∀ bs, fieldsBeq as bs = true ↔ as = bs) (fun e => ∀ b, e.2.beq b = true ↔ e.2 = b)
    ?_ ?_ ?_ ?_ ?_ ?_ ?_ ?_ ?_ ?_ (fun _ _ h => h) a b
  · intro b
    cases b <;> simp [Value.beq]
  · intro x b
    cases b <;> simp [Value.beq]
  · intro n b
    cases b <;> simp [Value.beq]
  · intro s b
    cases b <;> simp [Value.beq]
  · intro xs ih b
    cases b <;> simp [Value.beq, ih]
  · intro fs ih b
    cases b <;> simp [Value.beq, ih]
  · intro bs
    cases bs <;> simp [itemsBeq]
  · intro v vs hv hvs bs
    cases bs <;> simp [itemsBeq, hv, hvs]
  · intro bs
    cases bs <;> simp [fieldsBeq]
  · rintro ⟨k, v⟩ rest hv hr bs
    cases bs with
    | nil => simp [fieldsBeq]
    | cons e bs =>
      obtain ⟨l, b⟩ := e
      simp [fieldsBeq, hr, show v.beq b = true ↔ v = b from hv b]

instance : DecidableEq (Value N) := fun a b => decidable_of_iff (a.beq b = true) (Value.beq_iff a b)

end Equality

section WellFormed

mutual

/-- All objects, also those inside arrays, have their keys in order. -/
def Value.wellFormed : Value N → Bool
  | .array items => itemsWellFormed items
  | .object fields => decide (Sorted fields) && fieldsWellFormed fields
  | _ => true

def itemsWellFormed : List (Value N) → Bool
  | [] => true
  | v :: rest => v.wellFormed && itemsWellFormed rest

def fieldsWellFormed : Fields N → Bool
  | [] => true
  | (_, v) :: rest => v.wellFormed && fieldsWellFormed rest

end

theorem fieldsWellFormed_iff : fieldsWellFormed fs = true ↔ ∀ e ∈ fs, e.2.wellFormed = true := by
  induction fs with
  | nil => simp [fieldsWellFormed]
  | cons e fs ih => rw [fieldsWellFormed, Bool.and_eq_true, ih, List.forall_mem_cons]

theorem wellFormed_object :
    (Value.object fields).wellFormed = true ↔ Sorted fields ∧ ∀ e ∈ fields, e.2.wellFormed = true := by
  rw [Value.wellFormed, Bool.and_eq_true, decide_eq_true_eq, fieldsWellFormed_iff]

/-- A JSON value: every object is a map. -/
abbrev Json (N : Type) := { v : Value N // v.wellFormed = true }

def Value.isNull : Value N → Bool
  | .null => true
  | _ => false

def Value.asObject : Value N → Option (Fields N)
  | .object fields => some fields
  | _ => none

theorem asObject_eq_some {v : Value N} : v.asObject = some fields ↔ v = .object fields := by
  cases v <;> simp [Value.asObject]

mutual

/-- No object outside of arrays has a null field. -/
def Value.nullFree : Value N → Bool
  | .object fields => fieldsNullFree fields
  | _ => true

def fieldsNullFree : Fields N → Bool
  | [] => true
  | (_, v) :: rest => !v.isNull && v.nullFree && fieldsNullFree rest

end

theorem nullFree_object :
    (Value.object fs).nullFree = true ↔ ∀ e ∈ fs, e.2.isNull = false ∧ e.2.nullFree = true := by
  rw [Value.nullFree]
  induction fs with
  | nil => simp [fieldsNullFree]
  | cons e fs ih =>
    rw [fieldsNullFree, Bool.and_eq_true, Bool.and_eq_true, Bool.not_eq_true', ih, List.forall_mem_cons]

end WellFormed

end JsonValue
