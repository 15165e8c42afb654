import Libubox.Unformat.Input

/-!
# What is left of an input

`Ok` is the invariant of an input.  While it holds, getting a character comes to
one of four things (`Got`), and the characters that can be got are what is left
of the buffer followed by what the source still delivers (`obtainable_eq`).

A refill moves the positions back by the first mark and leaves the bytes where
they are (`unformatFillInput_eq`).
-/

namespace Libubox.Unformat

open Bytes

/-! ## The invariant -/

theorem subWord_of_le {a b : Nat} (hab : b ≤ a) (ha : a < 2 ^ 64) : subWord a b = a - b := by
  unfold subWord
  omega

/-- A position in a buffer of `len` bytes, or the end of input. -/
def IsPosition (len p : Nat) : Prop := p ≤ len ∨ p = END_OF_INPUT

/-- The invariant of an input. -/
structure Ok (i : Input) : Prop where
  size : i.buffer.length = BUFFER_SIZE
  len : i.bufferLen ≤ BUFFER_SIZE
  index : IsPosition i.bufferLen i.index
  marks : ∀ m ∈ i.marks, IsPosition i.bufferLen m
  sorted : (i.marks ++ [i.index]).Pairwise (· ≤ ·)

/-- How far a refill moves the positions back. -/
def Input.firstMark (i : Input) : Nat := i.marks.headD i.bufferLen

/-- The bytes a refill brings. -/
def Input.delivered (i : Input) : List UInt8 :=
  match i.source with
  | none => []
  | some src => src.chunk (BUFFER_SIZE - (i.bufferLen - i.firstMark))

variable {i j : Input}

theorem Ok.len_lt (h : Ok i) : i.bufferLen < 2 ^ 64 :=
  h.len.trans_lt (by decide)

theorem Ok.len_lt_end (h : Ok i) : i.bufferLen + 1 < END_OF_INPUT :=
  (Nat.succ_le_succ h.len).trans_lt (by decide)

theorem Ok.firstMark_le (h : Ok i) : i.firstMark ≤ i.index ∨
    i.marks = [] ∧ i.firstMark = i.bufferLen := by
  unfold Input.firstMark
  cases hm : i.marks with
  | nil => exact .inr ⟨rfl, rfl⟩
  | cons m ms =>
      left
      have hsorted := h.sorted
      rw [hm, List.cons_append, List.pairwise_cons] at hsorted
      exact hsorted.1 i.index (by simp)

theorem Ok.firstMark_le_len (h : Ok i) (hne : i.index ≠ END_OF_INPUT) :
    i.firstMark ≤ i.bufferLen := by
  rcases h.firstMark_le with hle | ⟨-, heq⟩
  · rcases h.index with hindex | hend
    · exact hle.trans hindex
    · exact absurd hend hne
  · exact heq.le

theorem Ok.mark_le (h : Ok i) (hne : i.index ≠ END_OF_INPUT) {m : Nat} (hm : m ∈ i.marks) :
    i.firstMark ≤ m ∧ m ≤ i.bufferLen := by
  have hle : m ≤ i.index := (List.pairwise_append.mp h.sorted).2.2 m hm i.index (by simp)
  have hindex : i.index ≤ i.bufferLen := h.index.resolve_right hne
  refine ⟨?_, hle.trans hindex⟩
  unfold Input.firstMark
  cases hms : i.marks with
  | nil => simp [hms] at hm
  | cons m' ms =>
      have hsorted := (List.pairwise_append.mp h.sorted).1
      rw [hms, List.pairwise_cons] at hsorted
      rw [hms, List.mem_cons] at hm
      rcases hm with rfl | hm
      · exact Nat.le_refl _
      · exact hsorted.1 m hm

theorem Source.chunk_length_le (src : Source) (room : Nat) : (src.chunk room).length ≤ room := by
  rw [Source.chunk, List.length_take]
  omega

/-- An input after a refill. -/
def Input.filled (i : Input) : Input :=
  { buffer := overwrite i.buffer (i.bufferLen - i.firstMark) i.delivered
    bufferLen := i.bufferLen - i.firstMark + i.delivered.length
    index := if i.delivered.isEmpty then END_OF_INPUT else i.bufferLen - i.firstMark
    marks := i.marks.map (· - i.firstMark)
    source := i.source.map fun src =>
      { src with rest := src.rest.drop i.delivered.length, calls := src.calls + 1 }
    fills := i.fills + 1 }

theorem index_after_fill {n : Nat} (hn : n ≤ END_OF_INPUT) (bytes : List UInt8) :
    (if n + bytes.length ≤ (if bytes.isEmpty then END_OF_INPUT else n) then END_OF_INPUT
      else if bytes.isEmpty then END_OF_INPUT else n)
      = if bytes.isEmpty then END_OF_INPUT else n := by
  cases bytes with
  | nil => simp [hn]
  | cons b bytes => simp

/-- **Filling the buffer.**  The positions move back by the first mark; the bytes
stay where they are. -/
theorem unformatFillInput_eq (h : Ok i) (hne : i.index ≠ END_OF_INPUT) :
    unformatFillInput i = i.filled := by
  have hfirst := h.firstMark_le_len hne
  have hlen := h.len_lt
  have hsub : (if 0 < i.firstMark then subWord i.bufferLen i.firstMark else i.bufferLen)
      = i.bufferLen - i.firstMark := by
    split
    · exact subWord_of_le hfirst hlen
    · omega
  have hmarks : i.marks.map (subWord · i.firstMark) = i.marks.map (· - i.firstMark) := by
    apply List.map_congr_left
    intro m hm
    obtain ⟨hle, hm⟩ := h.mark_le hne hm
    exact subWord_of_le hle (hm.trans_lt hlen)
  have hroom : subWord BUFFER_SIZE (i.bufferLen - i.firstMark)
      = BUFFER_SIZE - (i.bufferLen - i.firstMark) :=
    subWord_of_le ((Nat.sub_le _ _).trans h.len) (by decide)
  unfold unformatFillInput Input.filled Input.delivered
  unfold Input.firstMark at *
  rw [if_neg hne]
  simp only [hsub, hmarks]
  cases hsource : i.source with
  | none => simp [fillBuffer, overwrite]
  | some src =>
      simp only [fillBuffer, hroom]
      have hindex := index_after_fill (n := i.bufferLen - i.marks.headD i.bufferLen)
        (by have hend : i.bufferLen < END_OF_INPUT + 1 := hlen; omega)
        (src.chunk (BUFFER_SIZE - (i.bufferLen - i.marks.headD i.bufferLen)))
      simp only [hindex, Option.map_some]

/-! ## What is left -/

/-- What is left of the buffer. -/
def Input.unread (i : Input) : List UInt8 := (i.buffer.take i.bufferLen).drop i.index

/-- What the source still delivers: with a mark set, no more than there is room
for behind the mark. -/
def Input.fetch (i : Input) : List UInt8 :=
  if i.index = END_OF_INPUT then []
  else match i.marks with
    | [] => i.rest
    | m :: _ => i.rest.take (BUFFER_SIZE - (i.bufferLen - m))

theorem Input.delivered_isPrefix (i : Input) : i.delivered <+: i.rest := by
  unfold Input.delivered Input.rest
  cases i.source with
  | none => simp
  | some src => exact List.take_prefix _ _

theorem Input.delivered_length_le (i : Input) :
    i.delivered.length ≤ BUFFER_SIZE - (i.bufferLen - i.firstMark) := by
  unfold Input.delivered
  cases i.source with
  | none => simp
  | some src => exact src.chunk_length_le _

/-- Nothing is delivered only if there is nothing left or no room. -/
theorem Input.take_of_delivered_nil (hnil : i.delivered = []) :
    i.rest.take (BUFFER_SIZE - (i.bufferLen - i.firstMark)) = [] := by
  unfold Input.delivered at hnil
  unfold Input.rest
  cases hsource : i.source with
  | none => simp
  | some src =>
      simp only [hsource, Source.chunk, List.take_eq_nil_iff] at hnil
      simp only [Option.map_some, Option.getD_some, List.take_eq_nil_iff]
      rcases hnil with hzero | hrest
      · left
        omega
      · exact .inr hrest

theorem Input.filled_rest (i : Input) : i.filled.rest = i.rest.drop i.delivered.length := by
  unfold Input.filled Input.rest
  cases i.source with
  | none => simp
  | some src => simp

theorem overwrite_slice {buffer bytes : List UInt8} {at_ from_ : Nat} (hle : from_ ≤ at_)
    (hsize : at_ + bytes.length ≤ buffer.length) :
    ((overwrite buffer at_ bytes).take (at_ + bytes.length)).drop from_
      = (buffer.take at_).drop from_ ++ bytes := by
  have htake : (buffer.take at_ ++ bytes).length = at_ + bytes.length := by
    simp only [List.length_append, List.length_take]
    omega
  rw [overwrite, List.take_left' htake, List.drop_append_of_le_length]
  rw [List.length_take]
  omega

theorem Ok.filled_size (h : Ok i) : i.filled.buffer.length = BUFFER_SIZE := by
  have hroom := i.delivered_length_le
  have hlen := h.len
  have hsize := h.size
  unfold Input.filled
  rw [overwrite_length (by omega), hsize]

/-- **A refill delivers.**  Behind a refill is what the input still fetched. -/
theorem Ok.fetch_filled (h : Ok i) (hne : i.index ≠ END_OF_INPUT) :
    i.fetch = i.delivered ++ i.filled.fetch := by
  obtain ⟨rest, hrest⟩ := i.delivered_isPrefix
  have hroom := i.delivered_length_le
  have hnil := i.take_of_delivered_nil
  have hlen := h.len
  unfold Input.fetch
  rw [if_neg hne, Input.filled_rest, ← hrest, List.drop_left]
  cases hbytes : i.delivered with
  | nil =>
      specialize hnil hbytes
      rw [← hrest, hbytes] at hnil
      have hend : i.filled.index = END_OF_INPUT := by simp [Input.filled, hbytes]
      rw [if_pos hend]
      cases hmarks : i.marks with
      | nil =>
          simp only [Input.firstMark, hmarks, List.headD_nil, Nat.sub_self] at hnil
          simpa using hnil
      | cons m ms =>
          simp only [Input.firstMark, hmarks, List.headD_cons] at hnil
          simpa using hnil
  | cons b bytes =>
      have hend : i.filled.index ≠ END_OF_INPUT := by
        simp only [Input.filled, hbytes, List.isEmpty_cons, Bool.false_eq_true, if_false]
        have hlt := h.len_lt_end
        omega
      rw [if_neg hend]
      cases hmarks : i.marks with
      | nil => simp [Input.filled, hmarks]
      | cons m ms =>
          simp only [Input.firstMark, hmarks, List.headD_cons] at hroom
          simp only [Input.filled, hmarks, Input.firstMark, List.headD_cons, List.map_cons,
            Nat.sub_self, Nat.sub_zero, ← hbytes]
          rw [List.take_append, List.take_of_length_le hroom]
          congr 2
          omega

/-! ## Getting a character -/

/-- What getting a character comes to. -/
inductive Got (i : Input) : Option UInt8 → Input → Prop
  | atEnd : i.index = END_OF_INPUT → Got i none i
  | buffered (c : UInt8) : i.index < i.bufferLen →
      i.unread = c :: Input.unread { i with index := i.index + 1 } →
      Got i (some c) { i with index := i.index + 1 }
  | exhausted : i.index = i.bufferLen → i.delivered = [] → Got i none i.filled
  | refilled (c : UInt8) (bytes : List UInt8) : i.index = i.bufferLen →
      i.delivered = c :: bytes →
      Got i (some c) { i.filled with index := i.filled.index + 1 }

theorem Ok.filled_slice (h : Ok i) {p : Nat} (hp : p ≤ i.bufferLen - i.firstMark) :
    (i.filled.buffer.take i.filled.bufferLen).drop p
      = (i.buffer.take (i.bufferLen - i.firstMark)).drop p ++ i.delivered := by
  have hroom := i.delivered_length_le
  have hlen := h.len
  have hsize := h.size
  exact overwrite_slice hp (by omega)

/-- **Getting a character**: from the buffer, after a refill if there is nothing
left of it. -/
theorem Ok.got (h : Ok i) : ∃ c j, unformatGetInput i = some (c, j) ∧ Got i c j := by
  have hlen := h.len
  have hsize := h.size
  have hlt := h.len_lt_end
  by_cases hend : i.index = END_OF_INPUT
  · refine ⟨none, i, ?_, .atEnd hend⟩
    have hstay : ¬ i.index < i.bufferLen := by omega
    simp [unformatGetInput, unformatCheckInput, hend]
    omega
  rcases h.index.resolve_right hend |>.lt_or_eq with hbuffered | hfull
  · have hin : i.index < i.buffer.length := by omega
    refine ⟨some i.buffer[i.index], _, ?_, .buffered _ hbuffered ?_⟩
    · have hstay : ¬ i.bufferLen ≤ i.index := by omega
      simp [unformatGetInput, unformatCheckInput, hstay, hbuffered, hin]
    · unfold Input.unread
      rw [List.drop_eq_getElem_cons (by rw [List.length_take]; omega), List.getElem_take]
  have hcheck : unformatCheckInput i = i.filled := by
    rw [unformatCheckInput, if_pos ⟨hfull.ge, hend⟩, unformatFillInput_eq h hend]
  cases hbytes : i.delivered with
  | nil =>
      refine ⟨none, _, ?_, .exhausted hfull hbytes⟩
      have hstay : ¬ i.filled.index < i.filled.bufferLen := by
        simp only [Input.filled, hbytes, List.isEmpty_nil, if_true, List.length_nil]
        omega
      simp [unformatGetInput, hcheck, hstay]
  | cons c bytes =>
      refine ⟨some c, _, ?_, .refilled c bytes hfull hbytes⟩
      have hindex : i.filled.index = i.bufferLen - i.firstMark := by
        simp [Input.filled, hbytes]
      have hin : i.filled.index < i.filled.bufferLen := by
        rw [hindex]
        simp [Input.filled, hbytes]
      have hget : i.filled.buffer[i.filled.index]? = some c := by
        have hslice := h.filled_slice (Nat.le_refl (i.bufferLen - i.firstMark))
        have hnil : (i.buffer.take (i.bufferLen - i.firstMark)).drop (i.bufferLen - i.firstMark)
            = [] := List.drop_eq_nil_of_le (List.length_take_le _ _)
        rw [hnil, List.nil_append, hbytes, ← hindex] at hslice
        have hhead := congrArg (·[0]?) hslice
        simpa [List.getElem?_take, hin] using hhead
      simp [unformatGetInput, hcheck, hin, hget]

/-! ## The invariant holds -/

theorem Ok.advance (h : Ok i) (hlt : i.index < i.bufferLen) :
    Ok { i with index := i.index + 1 } where
  size := h.size
  len := h.len
  index := .inl hlt
  marks := h.marks
  sorted := by
    have hsorted := List.pairwise_append.mp h.sorted
    refine List.pairwise_append.mpr ⟨hsorted.1, by simp, ?_⟩
    intro m hm p hp
    have hle := hsorted.2.2 m hm i.index (by simp)
    simp only [List.mem_singleton] at hp
    omega

theorem Ok.filled (h : Ok i) (hfull : i.index = i.bufferLen) : Ok i.filled := by
  have hlen := h.len
  have hlt := h.len_lt_end
  have hne : i.index ≠ END_OF_INPUT := by omega
  have hroom := i.delivered_length_le
  have hfirst := h.firstMark_le_len hne
  have hindex : i.filled.index = END_OF_INPUT ∨ i.filled.index = i.bufferLen - i.firstMark := by
    simp only [Input.filled]
    split
    · exact .inl rfl
    · exact .inr rfl
  have hlow : i.bufferLen - i.firstMark ≤ i.filled.index := by omega
  have hmark : ∀ m ∈ i.filled.marks, m ≤ i.bufferLen - i.firstMark := by
    intro m hm
    obtain ⟨p, hp, rfl⟩ := List.mem_map.mp hm
    have hle := (h.mark_le hne hp).2
    omega
  have hfilled : i.bufferLen - i.firstMark ≤ i.filled.bufferLen := Nat.le_add_right _ _
  refine ⟨h.filled_size, ?_, ?_, ?_, ?_⟩
  · simp only [Input.filled]
    omega
  · rcases hindex with hend | hindex
    · exact .inr hend
    · exact .inl (hindex.le.trans hfilled)
  · intro m hm
    exact .inl ((hmark m hm).trans hfilled)
  · refine List.pairwise_append.mpr ⟨?_, by simp, ?_⟩
    · refine List.Pairwise.map _ ?_ (List.pairwise_append.mp h.sorted).1
      intro a b hab
      omega
    · intro m hm p hp
      simp only [List.mem_singleton] at hp
      exact hp ▸ (hmark m hm).trans hlow

theorem Got.ok {c : Option UInt8} (h : Ok i) (hgot : Got i c j) : Ok j := by
  cases hgot with
  | atEnd hend => exact h
  | buffered c hlt hunread => exact h.advance hlt
  | exhausted hfull hbytes => exact h.filled hfull
  | refilled c bytes hfull hbytes =>
      refine (h.filled hfull).advance ?_
      simp [Input.filled, hbytes]

/-! ## The characters that can be got -/

theorem Input.unread_nil (hindex : i.bufferLen ≤ i.index) : i.unread = [] :=
  List.drop_eq_nil_of_le ((List.length_take_le _ _).trans hindex)

theorem Ok.unread_filled (h : Ok i) (hsome : i.delivered ≠ []) : i.filled.unread = i.delivered := by
  have hindex : i.filled.index = i.bufferLen - i.firstMark := by
    simp [Input.filled, hsome]
  rw [Input.unread, hindex, h.filled_slice (Nat.le_refl _), List.drop_eq_nil_of_le,
    List.nil_append]
  exact List.length_take_le _ _

theorem Input.unread_succ {c : UInt8} {cs : List UInt8} (hunread : i.unread = c :: cs) :
    Input.unread { i with index := i.index + 1 } = cs := by
  unfold Input.unread at *
  rw [← List.drop_drop, hunread, List.drop_one, List.tail_cons]

theorem Input.fetch_end (hend : i.index = END_OF_INPUT) : i.fetch = [] := if_pos hend

theorem Input.fetch_index {p : Nat} (hne : i.index ≠ END_OF_INPUT) (hp : p ≠ END_OF_INPUT) :
    Input.fetch { i with index := p } = i.fetch := by
  rw [Input.fetch, Input.fetch, if_neg hne, if_neg hp]
  rfl

/-- The characters that are left. -/
def Input.left (i : Input) : List UInt8 := i.unread ++ i.fetch

/-- What is left, before and after a character is got. -/
theorem Got.left {c : Option UInt8} (h : Ok i) (hgot : Got i c j) :
    i.left = c.toList ++ j.left ∧ (c = none → i.left = []) := by
  have hlt := h.len_lt_end
  unfold Input.left
  cases hgot with
  | atEnd hend =>
      have hnil : i.unread = [] := Input.unread_nil (by omega)
      simp [hnil, Input.fetch_end hend]
  | buffered c hbuffered hunread =>
      have hfetch : Input.fetch { i with index := i.index + 1 } = i.fetch :=
        Input.fetch_index (by omega) (by omega)
      simp [hunread, hfetch]
  | exhausted hfull hbytes =>
      have hend : i.filled.index = END_OF_INPUT := by simp [Input.filled, hbytes]
      have hlt' := (h.filled hfull).len_lt_end
      have hnil : i.unread = [] := Input.unread_nil hfull.ge
      have hnil' : i.filled.unread = [] := Input.unread_nil (by omega)
      have hfetch := h.fetch_filled (by omega)
      rw [hbytes, List.nil_append, Input.fetch_end hend] at hfetch
      simp [hnil, hnil', hfetch, Input.fetch_end hend]
  | refilled c bytes hfull hbytes =>
      have hindex : i.filled.index = i.bufferLen - i.firstMark := by simp [Input.filled, hbytes]
      have hnil : i.unread = [] := Input.unread_nil hfull.ge
      have hunread := h.unread_filled (by simp [hbytes])
      rw [hbytes] at hunread
      have hfetch := h.fetch_filled (by omega)
      rw [hbytes] at hfetch
      have hfetch' : Input.fetch { i.filled with index := i.filled.index + 1 } = i.filled.fetch :=
        Input.fetch_index (by omega) (by omega)
      simp [hnil, hfetch, hfetch', Input.unread_succ hunread]

theorem drain_eq {fuel : Nat} : ∀ {i : Input}, Ok i → i.left.length < fuel →
    drain fuel i = some i.left := by
  induction fuel with
  | zero => intro i _ hfuel; omega
  | succ fuel ih =>
      intro i h hfuel
      obtain ⟨c, j, hget, hgot⟩ := h.got
      obtain ⟨hleft, hnil⟩ := hgot.left h
      rw [drain, hget]
      cases c with
      | none => simp [hnil rfl]
      | some c =>
          rw [hleft] at hfuel
          simp only [Option.toList_some, List.cons_append, List.nil_append, List.length_cons]
            at hfuel
          simp [ih (hgot.ok h) (by omega), hleft]

theorem Input.left_lt_fuel (i : Input) : i.left.length < i.fuel := by
  have hunread : i.unread.length ≤ i.bufferLen := by
    rw [Input.unread, List.length_drop, List.length_take]
    omega
  have hfetch : i.fetch.length ≤ i.rest.length := by
    unfold Input.fetch
    split
    · simp
    · split
      · exact Nat.le_refl _
      · exact List.length_take_le' _ _
  rw [Input.left, List.length_append, Input.fuel]
  omega

/-- **The obtainable characters** are what is left of the buffer and what the
source still delivers. -/
theorem obtainable_eq (h : Ok i) : obtainable i = some i.left :=
  drain_eq h i.left_lt_fuel

end Libubox.Unformat
