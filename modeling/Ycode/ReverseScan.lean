import Ycode.RustStr

/-!
# Scanning JSONL records from the end of a file

The scanner reads a file in chunks from its end and gives the records between newlines, last first. It keeps the bytes
of a record that spans several chunks reversed, as they come. Reads do not fail here.
-/
namespace ReverseScan

open RustStr List

def readChunkSize : Nat := 64 * 1024

def newline : UInt8 := 10

/-- `u8::is_ascii_whitespace` -/
def isAsciiWhitespace (byte : UInt8) : Bool := byte = 32 || byte = 9 || byte = 10 || byte = 12 || byte = 13

inductive ScanOutcome (τ ε : Type) where
  | parsed (value : τ)
  | rejected (error : ε)

/-- The scanner without its reader; `chunk` is the part of the buffer up to `chunk_position`. -/
structure ReverseJsonlScanner where
  nextChunkEnd : Nat
  chunk : List UInt8
  recordReversed : List UInt8

def rposition : List UInt8 → Option Nat
  | [] => none
  | byte :: rest =>
    match rposition rest with
    | some i => some (i + 1)
    | none => if byte = newline then some 0 else none

variable {τ ε : Type} (file : List UInt8) (fromSlice : List UInt8 → Except ε τ)

def newAt (endByteOffset : Nat) : Except Str ReverseJsonlScanner :=
  if endByteOffset > file.length then .error "reverse JSONL scan end is past the file".toList
  else .ok ⟨endByteOffset, [], []⟩

def outcome (record : List UInt8) : ScanOutcome τ ε :=
  match fromSlice record with
  | .ok value => .parsed value
  | .error error => .rejected error

def finishRecord (s : ReverseJsonlScanner) : Option (ScanOutcome τ ε) × ReverseJsonlScanner :=
  (if s.recordReversed.reverse.all isAsciiWhitespace then none else some (outcome fromSlice s.recordReversed.reverse),
    { s with recordReversed := [] })

/-- A chunk is read when nothing of the last one is left. -/
def refill (s : ReverseJsonlScanner) : ReverseJsonlScanner :=
  if s.chunk = [] then
    let readSize := min s.nextChunkEnd readChunkSize
    { s with
      nextChunkEnd := s.nextChunkEnd - readSize
      chunk := (file.drop (s.nextChunkEnd - readSize)).take readSize }
  else s

/-- One round of the loop of `scan_next`: it returns or goes on. -/
def scanRound (s : ReverseJsonlScanner) : (Option (ScanOutcome τ ε) × ReverseJsonlScanner) ⊕ ReverseJsonlScanner :=
  if s.chunk = [] ∧ s.nextChunkEnd = 0 then .inl (finishRecord fromSlice s)
  else
    let s := refill file s
    match rposition s.chunk with
    | some i =>
      let (found, s) := finishRecord fromSlice { s with
        chunk := s.chunk.take i, recordReversed := s.recordReversed ++ (s.chunk.drop (i + 1)).reverse }
      if found.isSome then .inl (found, s) else .inr s
    | none => .inr { s with chunk := [], recordReversed := s.recordReversed ++ s.chunk.reverse }

/-- The bytes that have not been searched for a newline yet. -/
def unread (s : ReverseJsonlScanner) : List UInt8 := file.take s.nextChunkEnd ++ s.chunk

def room (s : ReverseJsonlScanner) : Nat := s.nextChunkEnd + s.chunk.length

theorem rposition_none (h : rposition chunk = none) : newline ∉ chunk := by
  induction chunk with
  | nil => exact not_mem_nil
  | cons byte rest ih =>
    rw [rposition] at h
    split at h
    · cases h
    · rename_i hr
      split at h
      · cases h
      · rename_i hb
        exact fun hm => (mem_cons.mp hm).elim (fun he => hb he.symm) (ih hr)

theorem rposition_some (h : rposition chunk = some i) :
    chunk = chunk.take i ++ newline :: chunk.drop (i + 1) ∧ newline ∉ chunk.drop (i + 1) := by
  induction chunk generalizing i with
  | nil => cases h
  | cons byte rest ih =>
    rw [rposition] at h
    split at h
    · rename_i j hr
      cases h
      obtain ⟨hs, hl⟩ := ih hr
      exact ⟨congrArg (byte :: ·) hs, hl⟩
    · rename_i hr
      split at h
      · rename_i hb
        cases h
        exact ⟨by rw [hb]; rfl, rposition_none hr⟩
      · cases h

theorem refill_spec (h : ¬ (s.chunk = [] ∧ s.nextChunkEnd = 0)) :
    unread file (refill file s) = unread file s ∧ (refill file s).recordReversed = s.recordReversed ∧
      room (refill file s) ≤ room s ∧ (refill file s).nextChunkEnd < room s := by
  unfold refill
  by_cases hc : s.chunk = []
  · have he : s.nextChunkEnd ≠ 0 := fun he => h ⟨hc, he⟩
    obtain ⟨size, hs, hle, hp⟩ : ∃ size, size = min s.nextChunkEnd readChunkSize ∧ size ≤ s.nextChunkEnd ∧ 0 < size :=
      ⟨_, rfl, Nat.min_le_left _ _, Nat.lt_min.mpr ⟨Nat.pos_of_ne_zero he, by decide⟩⟩
    rw [if_pos hc, ← hs]
    refine ⟨?_, rfl, ?_, ?_⟩
    · rw [unread, unread, hc, append_nil, ← take_add, Nat.sub_add_cancel hle]
    · have hr := length_take_le size (file.drop (s.nextChunkEnd - size))
      simp only [room]
      omega
    · simp only [room]
      omega
  · have hp := length_pos_iff.mpr hc
    rw [if_neg hc]
    exact ⟨rfl, rfl, Nat.le_refl _, by rw [room]; omega⟩

/-- What a round does: it finishes the first record of the file, it finds the newline in front of a record, or it moves
a chunk without newlines to the record. -/
theorem scanRound_cases (s : ReverseJsonlScanner) :
    ((s.chunk = [] ∧ s.nextChunkEnd = 0) ∧ scanRound file fromSlice s = .inl (finishRecord fromSlice s)) ∨
      ∃ next back, newline ∉ back ∧ next.recordReversed = s.recordReversed ++ back.reverse ∧ room next < room s ∧
        ((unread file s = unread file next ++ newline :: back ∧ scanRound file fromSlice s =
            if (finishRecord fromSlice next).1.isSome then .inl (finishRecord fromSlice next)
            else .inr (finishRecord fromSlice next).2) ∨
          (unread file s = unread file next ++ back ∧ scanRound file fromSlice s = .inr next)) := by
  unfold scanRound
  by_cases hd : s.chunk = [] ∧ s.nextChunkEnd = 0
  · exact .inl ⟨hd, if_pos hd⟩
  · right
    rw [if_neg hd]
    obtain ⟨ht, hc, hr, hlt⟩ := refill_spec file hd
    generalize refill file s = t at ht hc hr hlt ⊢
    rw [← ht, ← hc]
    cases hp : rposition t.chunk with
    | some i =>
      obtain ⟨hs, hlast⟩ := rposition_some hp
      refine ⟨{ t with chunk := t.chunk.take i, recordReversed := t.recordReversed ++ (t.chunk.drop (i + 1)).reverse },
        t.chunk.drop (i + 1), hlast, rfl, ?_, .inl ⟨?_, by simp only [hp]⟩⟩
      · have hl := congrArg List.length hs
        rw [length_append, length_cons] at hl
        simp only [room] at hr ⊢
        omega
      · rw [unread, unread, append_assoc, ← hs]
    | none =>
      refine ⟨{ t with chunk := [], recordReversed := t.recordReversed ++ t.chunk.reverse }, t.chunk,
        rposition_none hp, rfl, hlt, .inr ⟨?_, by simp only [hp]⟩⟩
      rw [unread, unread, append_nil]

theorem scanRound_room (h : scanRound file fromSlice s = .inr s') : room s' < room s := by
  obtain ⟨_, hr⟩ | ⟨found, back, _, _, hroom, ⟨_, hr⟩ | ⟨_, hr⟩⟩ := scanRound_cases file fromSlice s
  · rw [hr] at h
    cases h
  · rw [hr] at h
    split at h
    · cases h
    · cases h
      exact hroom
  · rw [hr] at h
    cases h
    exact hroom

def scanNext (s : ReverseJsonlScanner) : Option (ScanOutcome τ ε) × ReverseJsonlScanner :=
  match _h : scanRound file fromSlice s with
  | .inl result => result
  | .inr next => scanNext next
termination_by room s
decreasing_by exact scanRound_room file fromSlice _h

/-- Calling `scan_next` until it gives nothing returns these outcomes. -/
inductive Drains : ReverseJsonlScanner → List (ScanOutcome τ ε) → Prop where
  | done : scanNext file fromSlice s = (none, s') → Drains s []
  | more : scanNext file fromSlice s = (some first, s') → Drains s' rest → Drains s (first :: rest)

/-- The records of a text that are not blank, last first. -/
def records (text : List UInt8) : List (ScanOutcome τ ε) :=
  ((text.splitOn newline).filter fun record => !record.all isAsciiWhitespace).reverse.map (outcome fromSlice)

theorem scanNext_again (h : scanRound file fromSlice s = .inr s') :
    scanNext file fromSlice s = scanNext file fromSlice s' := by
  rw [scanNext]
  split <;> rename_i hr <;> rw [h] at hr <;> cases hr
  rfl

theorem scanNext_return (h : scanRound file fromSlice s = .inl result) : scanNext file fromSlice s = result := by
  rw [scanNext]
  split <;> rename_i hr <;> rw [h] at hr <;> cases hr
  rfl

variable {file fromSlice}

theorem Drains.again (h : scanRound file fromSlice s = .inr s') (hr : Drains file fromSlice s' outcomes) :
    Drains file fromSlice s outcomes := by
  cases hr with
  | done hn => exact .done ((scanNext_again file fromSlice h).trans hn)
  | more hs hr => exact .more ((scanNext_again file fromSlice h).trans hs) hr

theorem records_single (h : newline ∉ record) : records fromSlice record =
    if record.all isAsciiWhitespace then [] else [outcome fromSlice record] := by
  rw [records, splitOn_eq_singleton h]
  cases hb : record.all isAsciiWhitespace <;> simp [hb]

theorem records_append (text r : List UInt8) :
    records fromSlice (text ++ newline :: r) = records fromSlice r ++ records fromSlice text := by
  rw [records, splitOn_append_cons_self, filter_append, reverse_append, map_append]
  rfl

/-- The scanner gives the records of what it has not searched, the last one with the bytes it has collected. -/
theorem drains_records (s : ReverseJsonlScanner) (h : newline ∉ s.recordReversed) :
    Drains file fromSlice s (records fromSlice (unread file s ++ s.recordReversed.reverse)) := by
  induction hroom : room s using Nat.strongRecOn generalizing s with
  | ind bound ih =>
    have hrecord : newline ∉ s.recordReversed.reverse := fun hm => h (mem_reverse.mp hm)
    obtain ⟨hd, hr⟩ | ⟨next, back, hback, hn, hlt, hc⟩ := scanRound_cases file fromSlice s
    · have hf := scanNext_return file fromSlice hr
      have hl : Drains file fromSlice { s with recordReversed := [] } [] :=
        .done (scanNext_return file fromSlice (if_pos hd))
      rw [unread, hd.1, hd.2, take_zero, nil_append, nil_append, records_single hrecord]
      rw [finishRecord] at hf
      split at hf
      · rename_i hb
        rw [if_pos hb]
        exact .done hf
      · rename_i hb
        rw [if_neg hb]
        exact .more hf hl
    · have ht : next.recordReversed.reverse = back ++ s.recordReversed.reverse := by
        rw [hn, reverse_append, reverse_reverse]
      have hw : newline ∉ next.recordReversed.reverse := by
        rw [ht, mem_append]
        exact fun hm => hm.elim hback hrecord
      obtain ⟨hu, hr⟩ | ⟨hu, hr⟩ := hc
      · have hrest := ih _ (hroom ▸ hlt) { next with recordReversed := [] } not_mem_nil rfl
        rw [reverse_nil, append_nil] at hrest
        rw [hu, append_assoc, cons_append, ← ht, records_append, records_single hw]
        rw [finishRecord] at hr
        split at hr
        · rename_i hb
          rw [if_pos hb]
          exact hrest.again hr
        · rename_i hb
          rw [if_neg hb]
          exact .more (scanNext_return file fromSlice hr) hrest
      · have hrest := ih _ (hroom ▸ hlt) next (fun hm => hw (mem_reverse.mpr hm)) rfl
        rw [ht, ← append_assoc, ← hu] at hrest
        exact hrest.again hr

/-- Scanning from any offset in the file gives each record in front of it once, in reverse order. -/
theorem scan_gives_records_reversed (file : List UInt8) (fromSlice : List UInt8 → Except ε τ)
    (endByteOffset : Fin (file.length + 1)) :
    ∃ scanner, newAt file endByteOffset = .ok scanner ∧
      Drains file fromSlice scanner (records fromSlice (file.take endByteOffset)) := by
  refine ⟨⟨endByteOffset, [], []⟩, if_neg (Nat.not_lt.mpr (Nat.le_of_lt_succ endByteOffset.isLt)), ?_⟩
  have hd : Drains file fromSlice _ _ := drains_records ⟨endByteOffset, [], []⟩ not_mem_nil
  simpa [unread] using hd

end ReverseScan
