import Libubox.Unformat.Left

/-!
# Moving over an input

A parser moves over its input by getting characters, putting back what it got,
and setting marks to which it may come back (`Moves`).

`Since` says what moves can have done to an input that had a mark: nothing but
to its index, or, once the buffer was refilled, the first mark has come to the
front of the buffer while the bytes have stayed where they were.
-/

namespace Libubox.Unformat

open Bytes

variable {i j : Input}

/-- The moves of a parser. -/
inductive Moves : Input → Input → Prop
  | refl (i : Input) : Moves i i
  | trans {i j k : Input} : Moves i j → Moves j k → Moves i k
  | check (i : Input) : Moves i (unformatCheckInput i)
  | get {i j : Input} {c : Option UInt8} : unformatGetInput i = some (c, j) → Moves i j
  | put {i : Input} : i.index ≠ END_OF_INPUT → 0 < i.index → (∀ m ∈ i.marks, m < i.index) →
      Moves i (unformatPutInput i)
  | scope {i j : Input} (back : Bool) : Moves i.push j → Moves i (j.pop back)

/-! ## The invariant holds -/

theorem Ok.push (h : Ok i) : Ok i.push where
  size := h.size
  len := h.len
  index := h.index
  marks := by
    intro m hm
    rcases List.mem_append.mp hm with hm | hm
    · exact h.marks m hm
    · exact (List.mem_singleton.mp hm) ▸ h.index
  sorted := by
    refine List.pairwise_append.mpr ⟨h.sorted, by simp, ?_⟩
    intro m hm p hp
    rw [List.mem_singleton] at hp
    rcases List.mem_append.mp hm with hm | hm
    · exact hp ▸ (List.pairwise_append.mp h.sorted).2.2 m hm i.index (by simp)
    · exact (hp.trans (List.mem_singleton.mp hm).symm).ge

theorem Ok.pop {marks : List Nat} {m : Nat} (h : Ok i) (hmarks : i.marks = marks ++ [m])
    (back : Bool) : Ok (i.pop back) := by
  have hsorted := h.sorted
  rw [hmarks] at hsorted
  have hpop : (i.pop back).marks = marks := by simp [Input.pop, hmarks]
  have hindex : (i.pop back).index = if back then m else i.index := by
    cases back <;> simp [Input.pop, hmarks]
  have hmem : ∀ p ∈ marks, p ∈ i.marks := by
    intro p hp
    simp [hmarks, hp]
  refine ⟨h.size, h.len, ?_, ?_, ?_⟩
  · show IsPosition i.bufferLen (i.pop back).index
    rw [hindex]
    cases back with
    | false => exact h.index
    | true => exact h.marks m (by simp [hmarks])
  · rw [hpop]
    intro p hp
    exact h.marks p (hmem p hp)
  · rw [hpop, hindex]
    cases back with
    | false =>
        rw [List.append_assoc] at hsorted
        exact hsorted.sublist (by simp)
    | true => exact (List.pairwise_append.mp hsorted).1

theorem Ok.put_eq (h : Ok i) (hne : i.index ≠ END_OF_INPUT) (hpos : 0 < i.index) :
    unformatPutInput i = { i with index := i.index - 1 } := by
  have hindex : i.index ≤ i.bufferLen := h.index.resolve_right hne
  rw [unformatPutInput, subWord_of_le hpos (hindex.trans_lt h.len_lt)]

theorem Ok.put (h : Ok i) (hne : i.index ≠ END_OF_INPUT) (hpos : 0 < i.index)
    (hmarks : ∀ m ∈ i.marks, m < i.index) : Ok (unformatPutInput i) := by
  have hindex : i.index ≤ i.bufferLen := h.index.resolve_right hne
  rw [h.put_eq hne hpos]
  refine ⟨h.size, h.len, .inl ((Nat.sub_le _ _).trans hindex), h.marks, ?_⟩
  refine List.pairwise_append.mpr ⟨(List.pairwise_append.mp h.sorted).1, by simp, ?_⟩
  intro m hm p hp
  rw [List.mem_singleton.mp hp]
  exact Nat.le_sub_one_of_lt (hmarks m hm)

theorem Ok.check (h : Ok i) : unformatCheckInput i = i ∨
    i.index = i.bufferLen ∧ unformatCheckInput i = i.filled := by
  unfold unformatCheckInput
  split_ifs with hfill
  · right
    have hle : i.index ≤ i.bufferLen := h.index.resolve_right hfill.2
    exact ⟨hle.antisymm hfill.1, unformatFillInput_eq h hfill.2⟩
  · exact .inl rfl

theorem Ok.getInput {c : Option UInt8} (h : Ok i) (hget : unformatGetInput i = some (c, j)) :
    Got i c j := by
  obtain ⟨c', j', hget', hgot⟩ := h.got
  rw [hget, Option.some.injEq, Prod.mk.injEq] at hget'
  obtain ⟨rfl, rfl⟩ := hget'
  exact hgot

theorem Input.filled_marks_length (i : Input) : i.filled.marks.length = i.marks.length := by
  simp [Input.filled]

theorem Got.marks_length {c : Option UInt8} (hgot : Got i c j) :
    j.marks.length = i.marks.length := by
  cases hgot with
  | atEnd hend => rfl
  | buffered c hlt hunread => rfl
  | exhausted hfull hbytes => exact i.filled_marks_length
  | refilled c bytes hfull hbytes => exact i.filled_marks_length

/-- The marks behind a mark that was set. -/
theorem exists_marks_of_push (hlength : j.marks.length = i.push.marks.length) :
    ∃ marks m, j.marks = marks ++ [m] ∧ marks.length = i.marks.length := by
  have hne : j.marks ≠ [] := by
    intro hnil
    simp [hnil, Input.push] at hlength
  refine ⟨j.marks.dropLast, j.marks.getLast hne, (List.dropLast_concat_getLast hne).symm, ?_⟩
  rw [List.length_dropLast, hlength]
  simp [Input.push]

/-- Moves keep the invariant and the marks that are set. -/
theorem Moves.ok (hmoves : Moves i j) : Ok i → Ok j ∧ j.marks.length = i.marks.length := by
  induction hmoves with
  | refl i => exact fun h => ⟨h, rfl⟩
  | trans _ _ ih₁ ih₂ =>
      intro h
      obtain ⟨hj, hij⟩ := ih₁ h
      obtain ⟨hk, hjk⟩ := ih₂ hj
      exact ⟨hk, hjk.trans hij⟩
  | check i =>
      intro h
      rcases h.check with hsame | ⟨hfull, hfill⟩
      · rw [hsame]
        exact ⟨h, rfl⟩
      · rw [hfill]
        exact ⟨h.filled hfull, i.filled_marks_length⟩
  | get hget => exact fun h => ⟨(h.getInput hget).ok h, (h.getInput hget).marks_length⟩
  | put hne hpos hmarks =>
      intro h
      refine ⟨h.put hne hpos hmarks, ?_⟩
      rw [h.put_eq hne hpos]
  | scope back _ ih =>
      intro h
      obtain ⟨hj, hlength⟩ := ih h.push
      obtain ⟨marks, m, hmarks, hold⟩ := exists_marks_of_push hlength
      refine ⟨hj.pop hmarks back, ?_⟩
      rw [← hold]
      simp [Input.pop, hmarks]

/-! ## What moves have done -/

/-- Nothing but the index and later marks differ from `S`. -/
structure Same (S s : Input) : Prop where
  buffer : s.buffer = S.buffer
  bufferLen : s.bufferLen = S.bufferLen
  source : s.source = S.source
  fills : s.fills = S.fills
  marks : S.marks <+: s.marks

/-- The buffer was refilled since `S`, with `bytes` in all. -/
structure Refilled (S s : Input) (bytes : List UInt8) : Prop where
  marks_le : ∀ m ∈ S.marks, m ≤ S.bufferLen
  delivered : bytes <+: S.rest
  room : S.bufferLen - S.firstMark + bytes.length ≤ BUFFER_SIZE
  buffer : s.buffer = overwrite S.buffer (S.bufferLen - S.firstMark) bytes
  bufferLen : s.bufferLen = S.bufferLen - S.firstMark + bytes.length
  rest : s.rest = S.rest.drop bytes.length
  fills : S.fills < s.fills
  marks : S.marks.map (· - S.firstMark) <+: s.marks

/-- What moves can have done since `S`. -/
def Since (S s : Input) : Prop := Same S s ∨ ∃ bytes, Refilled S s bytes

variable {S : Input}

theorem Since.refl (S : Input) : Since S S :=
  .inl ⟨rfl, rfl, rfl, rfl, List.prefix_rfl⟩

/-- The index is free, and so are later marks. -/
theorem Since.congr (hsince : Since S i) (hbuffer : j.buffer = i.buffer)
    (hlen : j.bufferLen = i.bufferLen) (hsource : j.source = i.source) (hfills : j.fills = i.fills)
    (hmarks : ∀ marks : List Nat, marks.length = S.marks.length → marks <+: i.marks →
      marks <+: j.marks) : Since S j := by
  rcases hsince with hsame | ⟨bytes, hrefilled⟩
  · left
    exact ⟨hbuffer.trans hsame.buffer, hlen.trans hsame.bufferLen, hsource.trans hsame.source,
      hfills.trans hsame.fills, hmarks _ rfl hsame.marks⟩
  · right
    refine ⟨bytes, hrefilled.marks_le, hrefilled.delivered, hrefilled.room,
      hbuffer.trans hrefilled.buffer, hlen.trans hrefilled.bufferLen, ?_, ?_,
      hmarks _ (List.length_map _) hrefilled.marks⟩
    · rw [Input.rest, hsource]
      exact hrefilled.rest
    · rw [hfills]
      exact hrefilled.fills

theorem Since.index (hsince : Since S i) (p : Nat) : Since S { i with index := p } :=
  hsince.congr rfl rfl rfl rfl fun _ _ h => h

theorem overwrite_overwrite {α : Type} {buffer bs cs : List α} {n : Nat}
    (hn : n + bs.length ≤ buffer.length) :
    overwrite (overwrite buffer n bs) (n + bs.length) cs = overwrite buffer n (bs ++ cs) := by
  have htake : (buffer.take n ++ bs).length = n + bs.length := by
    rw [List.length_append, List.length_take]
    omega
  rw [overwrite, overwrite, overwrite, List.take_left' htake, ← List.drop_drop,
    List.drop_left' htake, List.drop_drop, List.length_append]
  simp [Nat.add_assoc]

theorem firstMark_of_isPrefix (hne : S.marks ≠ []) (hmarks : S.marks <+: i.marks) :
    i.firstMark = S.firstMark := by
  obtain ⟨more, hmore⟩ := hmarks
  unfold Input.firstMark
  cases hms : S.marks with
  | nil => exact absurd hms hne
  | cons m ms => simp [← hmore, hms]

theorem firstMark_of_map (hne : S.marks ≠ [])
    (hmarks : S.marks.map (· - S.firstMark) <+: i.marks) : i.firstMark = 0 := by
  obtain ⟨more, hmore⟩ := hmarks
  unfold Input.firstMark at *
  cases hms : S.marks with
  | nil => exact absurd hms hne
  | cons m ms => simp [← hmore, hms]

theorem Since.filled (hS : Ok S) (hne : S.marks ≠ []) (h : Ok i) (hfull : i.index = i.bufferLen)
    (hsince : Since S i) : Since S i.filled := by
  have hlt := h.len_lt_end
  have hend : i.index ≠ END_OF_INPUT := by omega
  have hlen := h.len
  have hroom := i.delivered_length_le
  have hdelivered := i.delivered_isPrefix
  right
  rcases hsince with hsame | ⟨bytes, hrefilled⟩
  · have hfirst := firstMark_of_isPrefix hne hsame.marks
    have hrest : i.rest = S.rest := by rw [Input.rest, hsame.source, Input.rest]
    refine ⟨i.delivered, ?_, ?_, ?_, ?_, ?_, ?_, ?_, ?_⟩
    · intro m hm
      exact hsame.bufferLen ▸ (h.mark_le hend (hsame.marks.subset hm)).2
    · exact hrest ▸ hdelivered
    · rw [← hsame.bufferLen, ← hfirst]
      omega
    · simp only [Input.filled, hsame.buffer, hsame.bufferLen, hfirst]
    · simp only [Input.filled, hsame.bufferLen, hfirst]
    · rw [Input.filled_rest, hrest]
    · simp only [Input.filled, hsame.fills]
      omega
    · simp only [Input.filled, hfirst]
      exact hsame.marks.map _
  · have hfirst := firstMark_of_map hne hrefilled.marks
    have hsize := hrefilled.room
    have hS := hS.size
    rw [hrefilled.rest] at hdelivered
    rw [hfirst, Nat.sub_zero, hrefilled.bufferLen] at hroom
    have hbytes : bytes ++ i.delivered <+: S.rest := by
      rw [← List.take_append_drop bytes.length S.rest,
        ← List.prefix_iff_eq_take.mp hrefilled.delivered]
      exact List.prefix_append_right_inj _ |>.mpr hdelivered
    refine ⟨bytes ++ i.delivered, hrefilled.marks_le, hbytes, ?_, ?_, ?_, ?_, ?_, ?_⟩
    · rw [List.length_append]
      omega
    · simp only [Input.filled, hfirst, Nat.sub_zero, hrefilled.bufferLen, hrefilled.buffer]
      exact overwrite_overwrite (by omega)
    · simp only [Input.filled, hfirst, hrefilled.bufferLen, List.length_append]
      omega
    · rw [Input.filled_rest, hrefilled.rest, List.drop_drop, List.length_append]
    · have hfills := hrefilled.fills
      simp only [Input.filled]
      omega
    · simp only [Input.filled, hfirst, Nat.sub_zero, List.map_id']
      exact hrefilled.marks

theorem Since.got {c : Option UInt8} (hS : Ok S) (hne : S.marks ≠ []) (h : Ok i)
    (hsince : Since S i) (hgot : Got i c j) : Since S j := by
  cases hgot with
  | atEnd hend => exact hsince
  | buffered c hlt hunread => exact hsince.index _
  | exhausted hfull hbytes => exact hsince.filled hS hne h hfull
  | refilled c bytes hfull hbytes => exact (hsince.filled hS hne h hfull).index _

theorem Since.marks_length_le (hsince : Since S i) : S.marks.length ≤ i.marks.length := by
  rcases hsince with hsame | ⟨bytes, hrefilled⟩
  · exact hsame.marks.length_le
  · simpa using hrefilled.marks.length_le

/-- **What moves do.**  They leave everything but the index and the later marks as
it was, or have refilled the buffer. -/
theorem Moves.since (hmoves : Moves i j) : Ok i → ∀ {S : Input}, Ok S → S.marks ≠ [] →
    Since S i → Since S j := by
  induction hmoves with
  | refl i => exact fun _ _ _ _ hsince => hsince
  | trans hmoves _ ih₁ ih₂ =>
      intro h S hS hne hsince
      exact ih₂ (hmoves.ok h).1 hS hne (ih₁ h hS hne hsince)
  | check i =>
      intro h S hS hne hsince
      rcases h.check with hsame | ⟨hfull, hfill⟩
      · rw [hsame]
        exact hsince
      · rw [hfill]
        exact hsince.filled hS hne h hfull
  | get hget => exact fun h _ hS hne hsince => hsince.got hS hne h (h.getInput hget)
  | put hend hpos hmarks => exact fun h _ hS hne hsince => hsince.index _
  | @scope i j back hmoves ih =>
      intro h S hS hne hsince
      have hpush : Since S i.push :=
        hsince.congr rfl rfl rfl rfl fun marks _ hmarks => hmarks.trans (List.prefix_append _ _)
      obtain ⟨marks, m, hmarks, hold⟩ := exists_marks_of_push (hmoves.ok h.push).2
      refine (ih h.push hS hne hpush).congr rfl rfl rfl rfl ?_
      intro before hlength hbefore
      have hle := hsince.marks_length_le
      rw [hmarks] at hbefore
      have hpop : (j.pop back).marks = marks := by simp [Input.pop, hmarks]
      rw [hpop]
      exact List.prefix_of_prefix_length_le hbefore (List.prefix_append _ _) (by omega)

/-! ## Going back -/

/-- The byte that a refill brings to the front of the buffer, once the position
is marked. -/
def Input.start (i : Input) : Nat := i.marks.headD i.index

/-- What is left of the buffer is also found where the position is after a
refill. -/
def Input.Keeps (i : Input) : Prop :=
  (i.buffer.take (i.bufferLen - i.start)).drop (i.index - i.start) = i.unread

theorem Input.firstMark_push (i : Input) : i.push.firstMark = i.start := by
  unfold Input.firstMark Input.push Input.start
  cases i.marks <;> rfl

theorem Ok.start_le (h : Ok i) : i.start ≤ i.index := by
  unfold Input.start
  cases hmarks : i.marks with
  | nil => exact Nat.le_refl _
  | cons m ms =>
      have hsorted := h.sorted
      rw [hmarks, List.cons_append, List.pairwise_cons] at hsorted
      exact hsorted.1 i.index (by simp)

theorem Input.left_congr (hbuffer : j.buffer = i.buffer) (hlen : j.bufferLen = i.bufferLen)
    (hindex : j.index = i.index) (hmarks : j.marks = i.marks) (hrest : j.rest = i.rest) :
    j.left = i.left := by
  unfold Input.left Input.unread Input.fetch
  rw [hbuffer, hlen, hindex, hmarks, hrest]

theorem Same.pop (hsame : Same i.push j) (hlength : j.marks.length = i.push.marks.length) :
    (j.pop true).left = i.left := by
  have hmarks : i.marks ++ [i.index] = j.marks := hsame.marks.eq_of_length hlength.symm
  refine Input.left_congr hsame.buffer hsame.bufferLen ?_ ?_ ?_
  · simp [Input.pop, ← hmarks]
  · simp [Input.pop, ← hmarks]
  · show j.rest = i.rest
    rw [Input.rest, hsame.source]
    rfl

/-- What the source delivers behind the bytes it delivered. -/
theorem Refilled.fetch {bytes : List UInt8} (h : Ok i) (hrefilled : Refilled i.push j bytes)
    (hlength : j.marks.length = i.push.marks.length) :
    i.fetch = bytes ++ (j.pop true).fetch := by
  have hlt := h.len_lt_end
  have hstart := h.start_le
  have hmarks := hrefilled.marks.eq_of_length (by simpa using hlength.symm)
  have hindex : i.index ≤ i.bufferLen := hrefilled.marks_le i.index (by simp [Input.push])
  have hroom := hrefilled.room
  have hlen := hrefilled.bufferLen
  obtain ⟨rest, hrest⟩ := hrefilled.delivered
  have hrest' := hrefilled.rest
  rw [← hrest, List.drop_left] at hrest'
  rw [Input.firstMark_push] at hmarks hroom hlen
  simp only [Input.push, List.map_append, List.map_cons, List.map_nil] at hmarks hroom hlen hrest
  have hpop : j.pop true
      = { j with index := i.index - i.start, marks := i.marks.map (· - i.start) } := by
    simp [Input.pop, ← hmarks]
  unfold Input.fetch
  rw [if_neg (by omega), hpop, if_neg (by show i.index - i.start ≠ _; omega)]
  have hrest₁ : i.rest = bytes ++ rest := hrest.symm
  have hrest₂ : Input.rest { j with
      index := i.index - i.start, marks := i.marks.map (· - i.start) } = rest := hrest'
  rw [hrest₁, hrest₂]
  cases hms : i.marks with
  | nil => rfl
  | cons m ms =>
      have hm : i.start = m := by simp [Input.start, hms]
      simp only [List.map_cons, hm, Nat.sub_self, Nat.sub_zero, hlen]
      rw [hm] at hroom
      rw [List.take_append, List.take_of_length_le (by omega)]
      congr 2
      omega

theorem Refilled.unread {bytes : List UInt8} (h : Ok i) (hrefilled : Refilled i.push j bytes)
    (hlength : j.marks.length = i.push.marks.length) :
    (j.pop true).unread
      = (i.buffer.take (i.bufferLen - i.start)).drop (i.index - i.start) ++ bytes := by
  have hstart := h.start_le
  have hsize := h.size
  have hmarks := hrefilled.marks.eq_of_length (by simpa using hlength.symm)
  have hindex : i.index ≤ i.bufferLen := hrefilled.marks_le i.index (by simp [Input.push])
  have hroom := hrefilled.room
  have hlen := hrefilled.bufferLen
  have hbuffer := hrefilled.buffer
  rw [Input.firstMark_push] at hmarks hroom hlen hbuffer
  simp only [Input.push, List.map_append, List.map_cons, List.map_nil] at hmarks hroom hlen hbuffer
  have hlast : (j.pop true).index = i.index - i.start := by simp [Input.pop, ← hmarks]
  unfold Input.unread
  rw [hlast]
  simp only [Input.pop, hlen, hbuffer]
  exact overwrite_slice (by omega) (by omega)

theorem Refilled.pop {bytes : List UInt8} (h : Ok i) (hrefilled : Refilled i.push j bytes)
    (hlength : j.marks.length = i.push.marks.length) :
    (j.pop true).left = i.left ↔ i.Keeps := by
  unfold Input.left Input.Keeps
  rw [hrefilled.unread h hlength, hrefilled.fetch h hlength, List.append_assoc]
  exact List.append_cancel_right_eq _ _ _ |>.to_iff

/-- **Going back to a mark.**  The characters that can be got are those from
before exactly if the buffer was not refilled, or what was left of it happens to
be found in front as well. -/
theorem Moves.pop (h : Ok i) (hmoves : Moves i.push j) :
    (j.pop true).left = i.left ↔ (j.fills = i.fills ∨ i.Keeps) := by
  have hlength := (hmoves.ok h.push).2
  have hne : i.push.marks ≠ [] := by simp [Input.push]
  rcases hmoves.since h.push h.push hne (Since.refl _) with hsame | ⟨bytes, hrefilled⟩
  · exact iff_of_true (hsame.pop hlength) (.inl hsame.fills)
  · have hfills : j.fills ≠ i.fills := hrefilled.fills.ne'
    rw [hrefilled.pop h hlength, or_iff_right hfills]

end Libubox.Unformat
