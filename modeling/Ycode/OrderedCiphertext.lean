import Ycode.MessageFraming
import Ycode.ReorderBuffer

/-!
# Ordering ciphertexts

The cipher counts its messages, so ciphertexts must reach it in the order in which they were made. Records
that arrive early wait, within a window; of several copies of a record the first one counts.
-/
namespace OrderedCiphertext

open RustStr MessageFraming ReorderBuffer List

def maxReorderDistance : Nat := 64

def maxPendingBytes : Nat := 1024 * 1024

def u32Max : Nat := 2 ^ 32 - 1

structure RelayData where
  seq : Nat
  payload : Bytes
  deriving DecidableEq

structure OrderedCiphertextFrames where
  nextSeq : Nat
  pending : List (Nat × Bytes)
  pendingBytes : Nat

def OrderedCiphertextFrames.new : OrderedCiphertextFrames := { nextSeq := 0, pending := [], pendingBytes := 0 }

def sequenceExhausted : Str := "Noise relay sequence number exhausted".toList

def advance (frames : OrderedCiphertextFrames) : Except Str OrderedCiphertextFrames :=
  if frames.nextSeq < u32Max then .ok { frames with nextSeq := frames.nextSeq + 1 } else .error sequenceExhausted

/-- Takes the expected record out of the buffer. -/
def removeNext (frames : OrderedCiphertextFrames) (payload : Bytes) : OrderedCiphertextFrames :=
  { nextSeq := frames.nextSeq + 1
    pending := SortedMap.erase frames.nextSeq frames.pending
    pendingBytes := frames.pendingBytes - payload.length }

/-- The loop that releases what follows the expected record without a gap. -/
def releaseReady (frames : OrderedCiphertextFrames) : Except Str (OrderedCiphertextFrames × List Bytes) :=
  match _h : SortedMap.get frames.nextSeq frames.pending with
  | none => .ok (frames, [])
  | some payload =>
    if frames.nextSeq < u32Max then
      match releaseReady (removeNext frames payload) with
      | .error message => .error message
      | .ok (frames, ready) => .ok (frames, payload :: ready)
    else .error sequenceExhausted
termination_by frames.pending.length
decreasing_by exact length_erase_lt _h

def push (frames : OrderedCiphertextFrames) (seq : Nat) (payload : Bytes) :
    Except Str (OrderedCiphertextFrames × List Bytes) :=
  if seq < frames.nextSeq ∨ (SortedMap.get seq frames.pending).isSome then .ok (frames, [])
  else if seq > frames.nextSeq then
    if seq - frames.nextSeq > maxReorderDistance then
      .error "Noise relay ciphertext exceeds reorder window".toList
    else if frames.pendingBytes + payload.length > maxPendingBytes then
      .error "Noise relay pending ciphertext buffer is full".toList
    else .ok ({ frames with
      pending := SortedMap.insert seq payload frames.pending
      pendingBytes := frames.pendingBytes + payload.length }, [])
  else match advance frames with
    | .error message => .error message
    | .ok frames =>
      match releaseReady frames with
      | .error message => .error message
      | .ok (frames, ready) => .ok (frames, payload :: ready)

/-- A sequence of arrivals; returns everything released, in order. -/
def pushAll (frames : OrderedCiphertextFrames) : List RelayData → Except Str (OrderedCiphertextFrames × List Bytes)
  | [] => .ok (frames, [])
  | data :: rest =>
    match push frames data.seq data.payload with
    | .error message => .error message
    | .ok (frames, ready) =>
      match pushAll frames rest with
      | .error message => .error message
      | .ok (frames, later) => .ok (frames, ready ++ later)

theorem releaseReady_none (h : SortedMap.get frames.nextSeq frames.pending = none) :
    releaseReady frames = .ok (frames, []) := by
  rw [releaseReady]
  split
  · rfl
  · rename_i hs
    rw [h] at hs
    cases hs

theorem releaseReady_some (h : SortedMap.get frames.nextSeq frames.pending = some payload) :
    releaseReady frames = if frames.nextSeq < u32Max then
        match releaseReady (removeNext frames payload) with
        | .error message => .error message
        | .ok (frames, ready) => .ok (frames, payload :: ready)
      else .error sequenceExhausted := by
  rw [releaseReady]
  split
  · rename_i hn
    rw [h] at hn
    cases hn
  · rename_i hs
    rw [h] at hs
    cases hs
    rfl

/-- The state after the release of a run of records. -/
def afterRelease (frames : OrderedCiphertextFrames) (ready : List Bytes) (rest : List (Nat × Bytes)) :
    OrderedCiphertextFrames :=
  { nextSeq := frames.nextSeq + ready.length
    pending := rest
    pendingBytes := frames.pendingBytes - BoundedQueue.total List.length ready }

/-- The loop drains the buffer, unless the numbers run out. -/
theorem releaseReady_eq (frames : OrderedCiphertextFrames) (hnext : frames.nextSeq ≤ u32Max) :
    releaseReady frames = if frames.nextSeq + (drain frames.nextSeq frames.pending).1.length ≤ u32Max then
        .ok (afterRelease frames (drain frames.nextSeq frames.pending).1 (drain frames.nextSeq frames.pending).2,
          (drain frames.nextSeq frames.pending).1)
      else .error sequenceExhausted := by
  induction hn : frames.pending.length using Nat.strong_induction_on generalizing frames with
  | _ n ih =>
    cases hg : SortedMap.get frames.nextSeq frames.pending with
    | none =>
      rw [releaseReady_none hg, drain_none hg, if_pos (by simpa using hnext)]
      rfl
    | some pl =>
      rw [releaseReady_some hg, drain_some hg]
      by_cases hlt : frames.nextSeq < u32Max
      · have hs := ih _ (hn ▸ length_erase_lt hg) (removeNext frames pl) hlt rfl
        rw [show (removeNext frames pl).nextSeq = frames.nextSeq + 1 from rfl,
          show (removeNext frames pl).pending = SortedMap.erase frames.nextSeq frames.pending from rfl] at hs
        rw [if_pos hlt, hs, length_cons]
        by_cases hle : frames.nextSeq + 1 +
            (drain (frames.nextSeq + 1) (SortedMap.erase frames.nextSeq frames.pending)).1.length ≤ u32Max
        · rw [if_pos hle, if_pos (by omega)]
          simp only [afterRelease, removeNext, length_cons, BoundedQueue.total_cons, Nat.sub_sub]
          rw [Nat.add_assoc, Nat.add_comm 1]
        · rw [if_neg hle, if_neg (by omega)]
      · rw [if_neg hlt, if_neg]
        simp only [length_cons]
        omega

/-- The expected record, if its number is not the last one, is released with all that waited behind it. -/
theorem advance_releaseReady
    (ha : advance frames = .ok advanced) (hr : releaseReady advanced = .ok (frames', ready)) :
    ready = (drain (frames.nextSeq + 1) frames.pending).1 ∧ frames.nextSeq + 1 + ready.length ≤ u32Max ∧
      frames' = afterRelease { frames with nextSeq := frames.nextSeq + 1 }
        (drain (frames.nextSeq + 1) frames.pending).1 (drain (frames.nextSeq + 1) frames.pending).2 := by
  unfold advance at ha
  by_cases hlt : frames.nextSeq < u32Max
  · rw [if_pos hlt] at ha
    cases ha
    rw [releaseReady_eq { frames with nextSeq := frames.nextSeq + 1 } hlt] at hr
    split at hr
    · rename_i hle
      cases hr
      exact ⟨rfl, hle, rfl⟩
    · cases hr
  · rw [if_neg hlt] at ha
    cases ha

/-- What a record that is accepted does. -/
theorem push_cases (h : push frames seq payload = .ok (frames', ready)) :
    ((seq < frames.nextSeq ∨ SortedMap.get seq frames.pending ≠ none) ∧ frames' = frames ∧ ready = []) ∨
    (frames.nextSeq < seq ∧ SortedMap.get seq frames.pending = none ∧ ready = [] ∧ frames' = { frames with
      pending := SortedMap.insert seq payload frames.pending
      pendingBytes := frames.pendingBytes + payload.length }) ∨
    (seq = frames.nextSeq ∧ SortedMap.get seq frames.pending = none ∧
      ready = payload :: (drain (seq + 1) frames.pending).1 ∧ seq + ready.length ≤ u32Max ∧
      frames' = afterRelease { frames with nextSeq := seq + 1 } (drain (seq + 1) frames.pending).1
        (drain (seq + 1) frames.pending).2) := by
  unfold push at h
  split at h
  · rename_i ho
    cases h
    exact .inl ⟨ho.imp_right fun hs => Option.isSome_iff_ne_none.mp hs, rfl, rfl⟩
  · rename_i hnew
    obtain ⟨hg, hn⟩ := not_or.mp hnew
    have hn : SortedMap.get seq frames.pending = none := by simpa using hn
    split at h
    · rename_i hahead
      split at h
      · cases h
      · split at h
        · cases h
        · cases h
          exact .inr (.inl ⟨hahead, hn, rfl, rfl⟩)
    · obtain rfl : seq = frames.nextSeq := by omega
      refine .inr (.inr ⟨rfl, hn, ?_⟩)
      split at h
      · cases h
      · rename_i advanced ha
        split at h
        · cases h
        · rename_i hr
          cases h
          obtain ⟨rfl, hle, rfl⟩ := advance_releaseReady ha hr
          exact ⟨rfl, by simp only [length_cons]; omega, rfl⟩

section FirstCopy

/-- The payload of the first record that arrived under a number. -/
def firstCopy (arrivals : List RelayData) (seq : Nat) : Option Bytes :=
  (arrivals.find? (·.seq = seq)).map (·.payload)

theorem firstCopy_append :
    firstCopy (arrivals ++ [data]) seq =
      (firstCopy arrivals seq).or (if data.seq = seq then some data.payload else none) := by
  unfold firstCopy
  by_cases hs : data.seq = seq <;> simp [hs]

/-- A number that has arrived keeps its first copy. -/
theorem firstCopy_append_of_some (h : firstCopy arrivals seq = some payload) :
    firstCopy (arrivals ++ [data]) seq = some payload := by
  rw [firstCopy_append, h]
  rfl

theorem firstCopy_append_of_ne (h : data.seq ≠ seq) :
    firstCopy (arrivals ++ [data]) seq = firstCopy arrivals seq := by
  rw [firstCopy_append, if_neg h, Option.or_none]

theorem mem_of_firstCopy (h : firstCopy arrivals seq = some payload) : ⟨seq, payload⟩ ∈ arrivals := by
  obtain ⟨data, hf, rfl⟩ := Option.map_eq_some_iff.mp h
  obtain rfl : data.seq = seq := by simpa using find?_some hf
  exact mem_of_find?_eq_some hf

theorem firstCopy_ne_none (h : data ∈ arrivals) : firstCopy arrivals data.seq ≠ none := by
  intro hn
  rw [firstCopy, Option.map_eq_none_iff, find?_eq_none] at hn
  exact hn data h (by simp)

/-- What has been released are the first copies of the numbers below the next one, and the first copies of the
others wait. -/
structure Tracks (arrivals : List RelayData) (frames : OrderedCiphertextFrames) (released : List Bytes) : Prop where
  sorted : SortedMap.Sorted frames.pending
  count : released.length = frames.nextSeq
  released : ∀ seq, seq < frames.nextSeq → released[seq]? = firstCopy arrivals seq
  pending : ∀ seq, frames.nextSeq ≤ seq → SortedMap.get seq frames.pending = firstCopy arrivals seq
  behind : ∀ seq, seq < frames.nextSeq → SortedMap.get seq frames.pending = none
  stopped : SortedMap.get frames.nextSeq frames.pending = none
  bytes : frames.pendingBytes = waiting List.length frames.pending

theorem tracks_new : Tracks [] OrderedCiphertextFrames.new [] where
  sorted := List.Pairwise.nil
  count := rfl
  released := by simp [OrderedCiphertextFrames.new]
  pending := fun _ _ => rfl
  behind := fun _ _ => rfl
  stopped := rfl
  bytes := rfl

variable {released : List Bytes}

section

variable (h : Tracks arrivals frames released)
include h

theorem Tracks.released_some (hs : seq < frames.nextSeq) :
    ∃ payload, firstCopy arrivals seq = some payload ∧ released[seq]? = some payload := by
  have hlt : seq < released.length := h.count ▸ hs
  exact ⟨released.get ⟨seq, hlt⟩, (h.released seq hs).symm.trans (getElem?_eq_getElem hlt), getElem?_eq_getElem hlt⟩

/-- A number that was released or waits has arrived before. -/
theorem Tracks.duplicate (ho : data.seq < frames.nextSeq ∨ SortedMap.get data.seq frames.pending ≠ none) :
    Tracks (arrivals ++ [data]) frames released := by
  have hsome : ∃ payload, firstCopy arrivals data.seq = some payload := by
    by_cases hlt : data.seq < frames.nextSeq
    · obtain ⟨payload, hp, _⟩ := h.released_some hlt
      exact ⟨payload, hp⟩
    · rw [← h.pending data.seq (Nat.not_lt.mp hlt)]
      exact Option.ne_none_iff_exists'.mp (ho.resolve_left hlt)
  obtain ⟨payload, hp⟩ := hsome
  have hs : firstCopy (arrivals ++ [data]) = firstCopy arrivals := by
    funext seq
    by_cases hseq : data.seq = seq
    · subst hseq
      rw [firstCopy_append_of_some hp, hp]
    · exact firstCopy_append_of_ne hseq
  exact { h with released := hs ▸ h.released, pending := hs ▸ h.pending }

theorem Tracks.wait (ha : frames.nextSeq < data.seq) (hn : SortedMap.get data.seq frames.pending = none) :
    Tracks (arrivals ++ [data]) { frames with
      pending := SortedMap.insert data.seq data.payload frames.pending
      pendingBytes := frames.pendingBytes + data.payload.length } released := by
  refine ⟨h.sorted.insert _ _, h.count, fun seq hs => ?_, fun seq hs => ?_, fun seq hs => ?_, ?_, ?_⟩
  · rw [firstCopy_append_of_ne (by simp only at hs; omega)]
    exact h.released seq hs
  · simp only [SortedMap.get_insert]
    by_cases he : data.seq = seq
    · subst he
      rw [if_pos rfl, firstCopy_append, ← h.pending data.seq (Nat.le_of_lt ha), hn, if_pos rfl]
      rfl
    · rw [if_neg he, firstCopy_append_of_ne he]
      exact h.pending seq hs
  · simp only [SortedMap.get_insert]
    rw [if_neg (by simp only at hs; omega)]
    exact h.behind seq hs
  · simp only [SortedMap.get_insert]
    rw [if_neg (Nat.ne_of_gt ha)]
    exact h.stopped
  · simp only [waiting_insert List.length hn, h.bytes]

theorem Tracks.release (hn : data.seq = frames.nextSeq) : Tracks (arrivals ++ [data])
      (afterRelease { frames with nextSeq := data.seq + 1 } (drain (data.seq + 1) frames.pending).1
        (drain (data.seq + 1) frames.pending).2)
      (released ++ data.payload :: (drain (data.seq + 1) frames.pending).1) := by
  have hd := drain_drained (data.seq + 1) h.sorted
  have hw := waiting_drain List.length (data.seq + 1) h.sorted
  generalize (drain (data.seq + 1) frames.pending).1 = ready at hd hw ⊢
  have hc := h.count
  refine ⟨hd.sorted, ?_, fun seq hs => ?_, fun seq hs => ?_, fun seq hs => ?_, hd.stopped, ?_⟩
  · simp only [afterRelease, length_append, length_cons]
    omega
  · simp only [afterRelease] at hs
    rcases Nat.lt_trichotomy seq frames.nextSeq with hlt | rfl | hg
    · obtain ⟨pl, hp, hr⟩ := h.released_some hlt
      rw [getElem?_append_left (hc ▸ hlt), hr, firstCopy_append_of_some hp]
    · rw [getElem?_append_right (Nat.le_of_eq hc), hc, Nat.sub_self, firstCopy_append,
        ← h.pending _ (Nat.le_refl _), h.stopped, if_pos hn]
      rfl
    · have hi : seq - frames.nextSeq - 1 < ready.length := by omega
      obtain ⟨pl, hp⟩ : ∃ pl, ready[seq - frames.nextSeq - 1]? = some pl :=
        ⟨_, getElem?_eq_getElem hi⟩
      have ht := hd.waited _ _ hp
      rw [show data.seq + 1 + (seq - frames.nextSeq - 1) = seq by omega, h.pending seq (Nat.le_of_lt hg)] at ht
      rw [firstCopy_append_of_some ht, getElem?_append_right (by omega), hc,
        show seq - frames.nextSeq = seq - frames.nextSeq - 1 + 1 by omega, getElem?_cons_succ]
      exact hp
  · simp only [afterRelease] at hs ⊢
    rw [hd.kept, if_neg (by omega), firstCopy_append_of_ne (by omega)]
    exact h.pending seq (by omega)
  · simp only [afterRelease] at hs ⊢
    rw [hd.kept]
    split
    · rfl
    · by_cases hlt : seq < frames.nextSeq
      · exact h.behind seq hlt
      · rw [show seq = frames.nextSeq by omega]
        exact h.stopped
  · simp only [afterRelease, h.bytes, hw]
    omega

theorem Tracks.push (hp : push frames data.seq data.payload = .ok (frames', ready)) :
    Tracks (arrivals ++ [data]) frames' (released ++ ready) := by
  rcases push_cases hp with ⟨ho, rfl, rfl⟩ | ⟨ha, hnone, rfl, rfl⟩ | ⟨hn, _, rfl, _, rfl⟩
  · rw [append_nil]
    exact h.duplicate ho
  · rw [append_nil]
    exact h.wait ha hnone
  · exact h.release hn

theorem Tracks.pushAll (hp : pushAll frames more = .ok (frames', later)) :
    Tracks (arrivals ++ more) frames' (released ++ later) := by
  induction more generalizing arrivals frames released later with
  | nil =>
    cases hp
    simpa using h
  | cons data more ih =>
    rw [OrderedCiphertext.pushAll] at hp
    split at hp
    · cases hp
    · rename_i mid ready hf
      split at hp
      · cases hp
      · rename_i last rest hr
        cases hp
        rw [← singleton_append, ← append_assoc, ← append_assoc]
        exact ih (h.push hf) hr

end

end FirstCopy

section Window

/-- The records that were sent, numbered from zero. -/
structure Sent (sent : List RelayData) : Prop where
  numbered : ∀ (i : Nat) (data : RelayData), sent[i]? = some data → data.seq = i
  length_le : sent.length ≤ u32Max

/-- A record ahead of the expected one is within the window, by count and by bytes. -/
def InWindow (frames : OrderedCiphertextFrames) (data : RelayData) : Prop :=
  frames.nextSeq < data.seq → SortedMap.get data.seq frames.pending = none →
    data.seq - frames.nextSeq ≤ maxReorderDistance ∧ frames.pendingBytes + data.payload.length ≤ maxPendingBytes

/-- Every arrival is within the window of the state it meets. -/
def WithinWindow (frames : OrderedCiphertextFrames) : List RelayData → Prop
  | [] => True
  | data :: rest => InWindow frames data ∧
    ∀ frames' ready, push frames data.seq data.payload = .ok (frames', ready) → WithinWindow frames' rest

variable {released : List Bytes}

theorem Sent.seq_lt (hsent : Sent sent) (hm : data ∈ sent) : data.seq < sent.length := by
  obtain ⟨i, hi⟩ := mem_iff_getElem?.mp hm
  rw [hsent.numbered i data hi]
  exact (List.getElem?_eq_some_iff.mp hi).1

theorem Sent.getElem (hsent : Sent sent) (hm : data ∈ sent) : sent[data.seq]? = some data := by
  obtain ⟨i, hi⟩ := mem_iff_getElem?.mp hm
  rwa [hsent.numbered i data hi]

section

variable (hsent : Sent sent) (hsub : ∀ data ∈ arrivals, data ∈ sent) (h : Tracks arrivals frames released)
include hsent hsub h

/-- A record within the window is accepted. -/
theorem push_accepted (hm : data ∈ sent) (ho : InWindow frames data) :
    ∃ frames' ready, push frames data.seq data.payload = .ok (frames', ready) := by
  unfold push
  split
  · exact ⟨_, _, rfl⟩
  · rename_i hnew
    obtain ⟨hge, hn⟩ := not_or.mp hnew
    split
    · rename_i ha
      obtain ⟨hs, hbytes⟩ := ho ha (by simpa using hn)
      rw [if_neg (Nat.not_lt.mpr hs), if_neg (Nat.not_lt.mpr hbytes)]
      exact ⟨_, _, rfl⟩
    · have hlt := hsent.seq_lt hm
      have hl := hsent.length_le
      have hlast : frames.nextSeq < u32Max := by omega
      -- what waits was sent, so its numbers stay below the number of records
      have hr : frames.nextSeq + 1 + (drain (frames.nextSeq + 1) frames.pending).1.length ≤ u32Max := by
        have hd := drain_drained (frames.nextSeq + 1) h.sorted
        generalize (drain (frames.nextSeq + 1) frames.pending).1 = ready at hd ⊢
        by_contra hg
        have hi : ready.length - 1 < ready.length := by omega
        have hw := hd.waited _ _ (getElem?_eq_getElem hi)
        rw [h.pending _ (by omega)] at hw
        have hb := hsent.seq_lt (hsub _ (mem_of_firstCopy hw))
        simp only at hb
        omega
      rw [advance, if_pos hlast]
      simp only
      rw [releaseReady_eq { frames with nextSeq := frames.nextSeq + 1 } hlast]
      rw [if_pos hr]
      exact ⟨_, _, rfl⟩

theorem pushAll_accepted (hm : ∀ data ∈ more, data ∈ sent)
    (hw : WithinWindow frames more) : ∃ frames' later, pushAll frames more = .ok (frames', later) := by
  induction more generalizing arrivals frames released with
  | nil => exact ⟨frames, [], rfl⟩
  | cons data more ih =>
    obtain ⟨hd, hm⟩ := forall_mem_cons.mp hm
    obtain ⟨frames₁, ready, hp⟩ := push_accepted hsent hsub h hd hw.1
    have hs' : ∀ x ∈ arrivals ++ [data], x ∈ sent := by
      intro x ho
      rcases mem_append.mp ho with ho | ho
      · exact hsub x ho
      · rwa [mem_singleton.mp ho]
    obtain ⟨frames₂, later, hr⟩ := ih hs' (h.push hp) hm (hw.2 frames₁ ready hp)
    refine ⟨frames₂, ready ++ later, ?_⟩
    rw [pushAll, hp]
    simp only
    rw [hr]

end

/-- What is released is the first part of what was sent; all of it, once all has arrived. -/
theorem Tracks.released_sent (h : Tracks arrivals frames released) (hsent : Sent sent)
    (hsub : ∀ data ∈ arrivals, data ∈ sent) :
    released <+: sent.map (·.payload) ∧ ((∀ data ∈ sent, data ∈ arrivals) → released = sent.map (·.payload)) := by
  have hf : ∀ seq payload, firstCopy arrivals seq = some payload → (sent.map (·.payload))[seq]? = some payload := by
    intro seq payload hc
    rw [getElem?_map, hsent.getElem (hsub _ (mem_of_firstCopy hc))]
    rfl
  have hle : released <+: sent.map (·.payload) := by
    rw [prefix_iff_getElem?]
    intro i hi
    obtain ⟨payload, hc, hr⟩ := h.released_some (h.count ▸ hi)
    rw [hf i payload hc, ← hr, getElem?_eq_getElem hi]
  refine ⟨hle, fun hall => hle.eq_of_length_le ?_⟩
  rw [length_map, h.count]
  by_contra hlt
  obtain ⟨data, hd⟩ : ∃ data, sent[frames.nextSeq]? = some data := ⟨_, getElem?_eq_getElem (Nat.not_le.mp hlt)⟩
  have hs := hsent.numbered _ _ hd
  have ha := firstCopy_ne_none (hall data (mem_of_getElem? hd))
  rw [hs, ← h.pending _ (Nat.le_refl _)] at ha
  exact ha h.stopped

end Window

end OrderedCiphertext
