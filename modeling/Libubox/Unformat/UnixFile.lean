import Libubox.Unformat.Left

/-!
# Input from a file

`unformat_init_unix_file` over a descriptor whose reads return anything: a count
of bytes, 0, or -1.  `unix_file_fill_buffer` keeps the result in a `uword`, where
-1 is a huge count; `delivers_iff` says that the input is what was read exactly
if that does not happen.
-/

namespace Libubox.Unformat

open Bytes

/-! ## The calls -/

/-- What `read` returns: of the given number of calls before and of the room it is
asked to fill, some bytes, or `none` for -1. -/
structure Descriptor where
  read : Nat → Nat → Option (List UInt8)
  fits : ∀ calls room bytes, read calls room = some bytes → bytes.length ≤ room

/-- `unformat_input_t` with a callback, and what the callback keeps for itself. -/
structure Filled (σ : Type) where
  input : Input
  user : σ

variable {σ : Type}

/-- `_unformat_fill_input`. -/
def fillInputBy (fill : Filled σ → Filled σ × Nat) (s : Filled σ) : Filled σ :=
  if s.input.index = END_OF_INPUT then s
  else
    let firstMark := s.input.marks.headD s.input.bufferLen
    let bufferLen :=
      if 0 < firstMark then subWord s.input.bufferLen firstMark else s.input.bufferLen
    let (s, index) := fill { s with
      input := { s.input with
        bufferLen
        index := bufferLen
        marks := s.input.marks.map (subWord · firstMark)
        fills := s.input.fills + 1 } }
    { s with input := { s.input with
      index := if s.input.bufferLen ≤ index then END_OF_INPUT else index } }

/-- `unformat_check_input`. -/
def checkInputBy (fill : Filled σ → Filled σ × Nat) (s : Filled σ) : Filled σ :=
  if s.input.bufferLen ≤ s.input.index ∧ s.input.index ≠ END_OF_INPUT then fillInputBy fill s
  else s

/-- `unformat_get_input`. -/
def getInputBy (fill : Filled σ → Filled σ × Nat) (s : Filled σ) :
    Option (Option UInt8 × Filled σ) :=
  let s := checkInputBy fill s
  if s.input.index < s.input.bufferLen then
    (s.input.buffer[s.input.index]?).map fun c =>
      (some c, { s with input := { s.input with index := s.input.index + 1 } })
  else some (none, s)

/-- The result of `read` in a `uword`. -/
def readWord (result : Option (List UInt8)) : Nat :=
  match result with
  | none => 2 ^ 64 - 1
  | some bytes => bytes.length

/-- `unix_file_fill_buffer`; the state counts the reads. -/
def unixFileFillBuffer (d : Descriptor) (s : Filled Nat) : Filled Nat × Nat :=
  let result := d.read s.user (subWord BUFFER_SIZE s.input.bufferLen)
  let n := readWord result
  let input := { s.input with
    buffer := overwrite s.input.buffer s.input.bufferLen (result.getD [])
    bufferLen := if 0 < n then (s.input.bufferLen + n) % 2 ^ 64 else s.input.bufferLen }
  (⟨input, s.user + 1⟩, if n ≤ 0 then END_OF_INPUT else input.index)

/-- `unformat_init_unix_file`. -/
def unformatInitUnixFile : Filled Nat := ⟨unformatInit none, 0⟩

/-- The callback that the other modules have. -/
theorem fillInputBy_source (i : Input) :
    (fillInputBy (fun s => (⟨(fillBuffer s.input).1, ()⟩, (fillBuffer s.input).2))
      (⟨i, ()⟩ : Filled Unit)).input = unformatFillInput i := by
  unfold fillInputBy unformatFillInput
  split
  · rfl
  · rfl

/-! ## What is got -/

/-- Calls of `unformat_get_input` one after the other. -/
def gets (d : Descriptor) : Nat → Filled Nat → Option (List (Option UInt8) × Filled Nat)
  | 0, s => some ([], s)
  | n + 1, s =>
      (getInputBy (unixFileFillBuffer d) s).bind fun p =>
        (gets d n p.2).map fun q => (p.1 :: q.1, q.2)

/-- The bytes of the reads from the given one on, up to the first 0 or -1.  Each read
asks for the whole buffer. -/
def Descriptor.bytes (d : Descriptor) : Nat → Nat → List UInt8
  | 0, _ => []
  | n + 1, k =>
      match d.read k BUFFER_SIZE with
      | some (c :: cs) => c :: cs ++ d.bytes n (k + 1)
      | _ => []

/-- However many characters are got, they are those that were read, in order, and
then the end of input; the length of the buffer stays within its size. -/
def Delivers (d : Descriptor) : Prop :=
  ∀ n, ∃ s, gets d n unformatInitUnixFile =
      some (((d.bytes n 0).map some ++ List.replicate n none).take n, s) ∧
    s.input.bufferLen ≤ BUFFER_SIZE

/-- The reads before the given one return bytes. -/
def Descriptor.PositiveTo (d : Descriptor) (k : Nat) : Prop :=
  ∀ j < k, ∃ c cs, d.read j BUFFER_SIZE = some (c :: cs)

/-! ## One character -/

variable {d : Descriptor} {s : Filled Nat} {k n : Nat} {c : UInt8} {cs : List UInt8}

/-- Some characters are left in the buffer, and the given number of reads was made. -/
structure At (s : Filled Nat) (k : Nat) (left : List UInt8) : Prop where
  size : s.input.buffer.length = BUFFER_SIZE
  len : s.input.bufferLen ≤ BUFFER_SIZE
  index : s.input.index ≤ s.input.bufferLen
  marks : s.input.marks = []
  unread : s.input.unread = left
  reads : s.user = k

theorem At.index_eq (h : At s k []) : s.input.index = s.input.bufferLen := by
  have hunread := congrArg List.length h.unread
  rw [Input.unread, List.length_drop, List.length_take, h.size] at hunread
  have := h.len
  have := h.index
  simp only [List.length_nil] at hunread
  omega

theorem at_init : At unformatInitUnixFile 0 [] where
  size := List.length_replicate
  len := Nat.zero_le _
  index := Nat.le_refl _
  marks := rfl
  unread := rfl
  reads := rfl

theorem getInputBy_left (h : At s k (c :: cs)) :
    ∃ s', getInputBy (unixFileFillBuffer d) s = some (some c, s') ∧ At s' k cs := by
  have hlen := h.len
  have hsize := h.size
  have hlt : s.input.index < s.input.bufferLen := by
    have hunread := congrArg List.length h.unread
    rw [Input.unread, List.length_drop, List.length_take, List.length_cons] at hunread
    omega
  have hcheck : checkInputBy (unixFileFillBuffer d) s = s := by
    rw [checkInputBy, if_neg (by omega)]
  have hget : s.input.buffer[s.input.index]? = some c := by
    have hhead := congrArg (·[0]?) h.unread
    simpa [Input.unread, List.getElem?_take, hlt] using hhead
  refine ⟨{ s with input := { s.input with index := s.input.index + 1 } }, ?_, ?_⟩
  · rw [getInputBy, hcheck]
    simp only [hlt, if_true, hget, Option.map_some]
  · exact ⟨hsize, hlen, hlt, h.marks, Input.unread_succ h.unread, h.reads⟩

/-- A refill at the end of the buffer. -/
theorem checkInputBy_end (h : At s k []) : ∃ s', checkInputBy (unixFileFillBuffer d) s = s' ∧
    s'.input.buffer = overwrite s.input.buffer 0 ((d.read k BUFFER_SIZE).getD []) ∧
    s'.input.bufferLen = readWord (d.read k BUFFER_SIZE) ∧ s'.input.marks = [] ∧
    s'.user = k + 1 ∧
    s'.input.index = if readWord (d.read k BUFFER_SIZE) = 0 then END_OF_INPUT else 0 := by
  have hindex := h.index_eq
  have hlen : s.input.bufferLen < 2 ^ 64 - 1 := h.len.trans_lt (by decide)
  have hne : s.input.index ≠ END_OF_INPUT := by
    rw [hindex]
    exact Nat.ne_of_lt hlen
  have hzero : (if 0 < s.input.bufferLen then subWord s.input.bufferLen s.input.bufferLen
      else s.input.bufferLen) = 0 := by
    unfold subWord
    split
    · omega
    · omega
  have hroom : subWord BUFFER_SIZE 0 = BUFFER_SIZE := by decide
  have hword : readWord (d.read k BUFFER_SIZE) < 2 ^ 64 := by
    unfold readWord
    split
    · decide
    · next bytes hread =>
        exact (d.fits k BUFFER_SIZE bytes hread).trans_lt (by decide)
  refine ⟨_, rfl, ?_⟩
  rw [checkInputBy, if_pos ⟨hindex.ge, hne⟩, fillInputBy, if_neg hne]
  simp only [h.marks, List.headD_nil, hzero, unixFileFillBuffer, hroom, h.reads, List.map_nil,
    Nat.zero_add, Nat.mod_eq_of_lt hword]
  generalize readWord (d.read k BUFFER_SIZE) = n at *
  by_cases hn : n = 0
  · simp [hn]
  · have hpos : 0 < n := Nat.pos_of_ne_zero hn
    simp [hn, hpos]

theorem getInputBy_read (h : At s k []) (hread : d.read k BUFFER_SIZE = some (c :: cs)) :
    ∃ s', getInputBy (unixFileFillBuffer d) s = some (some c, s') ∧ At s' (k + 1) cs := by
  obtain ⟨s₁, hcheck, hbuffer, hlen, hmarks, hreads, hindex⟩ := checkInputBy_end (d := d) h
  rw [hread] at hbuffer hlen hindex
  have hfits : (c :: cs).length ≤ BUFFER_SIZE := d.fits k BUFFER_SIZE _ hread
  have hsize : s₁.input.buffer.length = BUFFER_SIZE := by
    have := h.size
    rw [hbuffer, Option.getD_some, overwrite_length (by omega), h.size]
  have hlen : s₁.input.bufferLen = (c :: cs).length := hlen
  have hindex : s₁.input.index = 0 := hindex
  have hunread : s₁.input.unread = c :: cs := by
    rw [Input.unread, hbuffer, hlen, hindex]
    simp [overwrite]
  have hat : At s₁ (k + 1) (c :: cs) :=
    ⟨hsize, hlen ▸ hfits, by omega, hmarks, hunread, hreads⟩
  obtain ⟨s', hget, hnext⟩ := getInputBy_left (d := d) hat
  refine ⟨s', ?_, hnext⟩
  have hstays : checkInputBy (unixFileFillBuffer d) s₁ = s₁ := by
    rw [checkInputBy, if_neg (by rw [hlen, hindex]; simp)]
  rw [getInputBy, hstays] at hget
  rw [getInputBy, hcheck, hget]

/-- The end of input has been found. -/
structure Ended (s : Filled Nat) : Prop where
  len : s.input.bufferLen ≤ BUFFER_SIZE
  index : s.input.index = END_OF_INPUT

theorem Ended.not_lt (h : Ended s) : ¬s.input.index < s.input.bufferLen := by
  have hlen : s.input.bufferLen < END_OF_INPUT := h.len.trans_lt (by decide)
  have := h.index
  omega

theorem getInputBy_end (h : At s k []) (hread : d.read k BUFFER_SIZE = some []) :
    ∃ s', getInputBy (unixFileFillBuffer d) s = some (none, s') ∧ Ended s' := by
  obtain ⟨s₁, hcheck, hbuffer, hlen, hmarks, hreads, hindex⟩ := checkInputBy_end (d := d) h
  rw [hread] at hlen hindex
  have hended : Ended s₁ := ⟨by rw [hlen]; exact Nat.zero_le _, hindex⟩
  refine ⟨s₁, ?_, hended⟩
  rw [getInputBy, hcheck]
  simp only [hended.not_lt, if_false]

theorem getInputBy_ended (h : Ended s) :
    getInputBy (unixFileFillBuffer d) s = some (none, s) := by
  have hcheck : checkInputBy (unixFileFillBuffer d) s = s := by
    rw [checkInputBy, if_neg fun hcond => hcond.2 h.index]
  rw [getInputBy, hcheck]
  simp only [h.not_lt, if_false]

/-- A read that fails counts as 2 ^ 64 - 1 bytes. -/
theorem getInputBy_failed (h : At s k []) (hread : d.read k BUFFER_SIZE = none) :
    ∃ c s', getInputBy (unixFileFillBuffer d) s = some (c, s') ∧
      s'.input.bufferLen = 2 ^ 64 - 1 := by
  obtain ⟨s₁, hcheck, hbuffer, hlen, hmarks, hreads, hindex⟩ := checkInputBy_end (d := d) h
  rw [hread] at hbuffer hlen hindex
  have hindex : s₁.input.index = 0 := hindex
  have hlen : s₁.input.bufferLen = 2 ^ 64 - 1 := hlen
  have hsize : s₁.input.buffer.length = BUFFER_SIZE := by
    rw [hbuffer, Option.getD_none, overwrite_length (Nat.zero_le _), h.size]
  have hin : 0 < s₁.input.buffer.length := by
    rw [hsize]
    decide
  have hlt : 0 < s₁.input.bufferLen := by
    rw [hlen]
    decide
  refine ⟨some s₁.input.buffer[0], { s₁ with input := { s₁.input with index := 0 + 1 } }, ?_, hlen⟩
  rw [getInputBy, hcheck]
  simp only [hindex, hlt, if_true, List.getElem?_eq_getElem hin, Option.map_some]

/-! ## All characters -/

theorem gets_succ {c : Option UInt8} {s₁ : Filled Nat}
    (h : getInputBy (unixFileFillBuffer d) s = some (c, s₁)) :
    gets d (n + 1) s = (gets d n s₁).map fun p => (c :: p.1, p.2) := by
  rw [gets, h, Option.bind_some]

theorem gets_ended (h : Ended s) (n : Nat) : gets d n s = some (List.replicate n none, s) := by
  induction n with
  | zero => rfl
  | succ n ih =>
      rw [gets_succ (getInputBy_ended h), ih]
      rfl

/-- No read fails as long as the reads before it return bytes. -/
def Descriptor.Sound (d : Descriptor) : Prop :=
  ∀ k, d.PositiveTo k → d.read k BUFFER_SIZE ≠ none

/-- The characters that are left, then those of the reads to come. -/
theorem gets_at (hd : d.Sound) (hk : d.PositiveTo k) {left : List UInt8} (h : At s k left)
    (n : Nat) :
    ∃ s', s'.input.bufferLen ≤ BUFFER_SIZE ∧ ∀ m r, n ≤ m → n ≤ r → gets d n s =
      some (((left ++ d.bytes m k).map some ++ List.replicate r none).take n, s') := by
  induction n generalizing s k left with
  | zero => exact ⟨s, h.len, fun m r _ _ => rfl⟩
  | succ n ih =>
      cases left with
      | cons c left =>
          obtain ⟨s₁, hget, h₁⟩ := getInputBy_left (d := d) h
          obtain ⟨s', hlen, hrest⟩ := ih hk h₁
          refine ⟨s', hlen, fun m r hm hr => ?_⟩
          rw [gets_succ hget, hrest m r (by omega) (by omega)]
          rfl
      | nil =>
          cases hread : d.read k BUFFER_SIZE with
          | none => exact absurd hread (hd k hk)
          | some bytes =>
              cases bytes with
              | nil =>
                  obtain ⟨s₁, hget, h₁⟩ := getInputBy_end h hread
                  refine ⟨s₁, h₁.len, fun m r hm hr => ?_⟩
                  have hbytes : d.bytes m k = [] := by
                    cases m with
                    | zero => rfl
                    | succ m => rw [Descriptor.bytes, hread]
                  rw [gets_succ hget, gets_ended h₁, hbytes]
                  simp only [List.append_nil, List.map_nil, List.nil_append, List.take_replicate,
                    Nat.min_eq_left hr]
                  rfl
              | cons c cs =>
                  obtain ⟨s₁, hget, h₁⟩ := getInputBy_read h hread
                  have hk₁ : d.PositiveTo (k + 1) := by
                    intro j hj
                    rcases Nat.lt_succ_iff_lt_or_eq.mp hj with hj | rfl
                    · exact hk j hj
                    · exact ⟨c, cs, hread⟩
                  obtain ⟨s', hlen, hrest⟩ := ih hk₁ h₁
                  refine ⟨s', hlen, fun m r hm hr => ?_⟩
                  obtain ⟨m, rfl⟩ := Nat.exists_eq_succ_of_ne_zero (show m ≠ 0 by omega)
                  rw [gets_succ hget, hrest m r (by omega) (by omega), Descriptor.bytes, hread]
                  rfl

/-- A failing read is come to by getting all characters before it. -/
theorem gets_failed (m : Nat) (hfail : d.read (k + m) BUFFER_SIZE = none)
    (hpos : ∀ j < m, ∃ c cs, d.read (k + j) BUFFER_SIZE = some (c :: cs))
    {left : List UInt8} (h : At s k left) :
    ∃ n cs s', gets d n s = some (cs, s') ∧ s'.input.bufferLen = 2 ^ 64 - 1 := by
  induction m generalizing s k left with
  | zero =>
      induction left generalizing s with
      | nil =>
          obtain ⟨c, s', hget, hlen⟩ := getInputBy_failed h hfail
          exact ⟨1, [c], s', by rw [gets_succ hget]; rfl, hlen⟩
      | cons c left ih =>
          obtain ⟨s₁, hget, h₁⟩ := getInputBy_left (d := d) h
          obtain ⟨n, cs, s', hgets, hlen⟩ := ih h₁
          exact ⟨n + 1, some c :: cs, s', by rw [gets_succ hget, hgets]; rfl, hlen⟩
  | succ m ih =>
      induction left generalizing s with
      | nil =>
          obtain ⟨c, cs, hread⟩ := hpos 0 (Nat.succ_pos m)
          obtain ⟨s₁, hget, h₁⟩ := getInputBy_read h hread
          have hnext : ∀ j < m, ∃ c cs, d.read (k + 1 + j) BUFFER_SIZE = some (c :: cs) := by
            intro j hj
            rw [show k + 1 + j = k + (j + 1) by omega]
            exact hpos (j + 1) (Nat.succ_lt_succ hj)
          have hfail : d.read (k + 1 + m) BUFFER_SIZE = none := by
            rw [show k + 1 + m = k + (m + 1) by omega]
            exact hfail
          obtain ⟨n, cs, s', hgets, hlen⟩ := ih hfail hnext h₁
          exact ⟨n + 1, some c :: cs, s', by rw [gets_succ hget, hgets]; rfl, hlen⟩
      | cons c left ihleft =>
          obtain ⟨s₁, hget, h₁⟩ := getInputBy_left (d := d) h
          obtain ⟨n, cs, s', hgets, hlen⟩ := ihleft h₁
          exact ⟨n + 1, some c :: cs, s', by rw [gets_succ hget, hgets]; rfl, hlen⟩

/-- **The input is what was read** exactly if no read fails before one returns 0. -/
theorem delivers_iff (d : Descriptor) : Delivers d ↔ d.Sound := by
  constructor
  · intro h k hk hfail
    obtain ⟨n, cs, s', hgets, hlen⟩ := gets_failed k (k := 0) (by rwa [Nat.zero_add])
      (fun j hj => by rw [Nat.zero_add]; exact hk j hj) at_init
    obtain ⟨s, hall, hsize⟩ := h n
    have hs : s = s' := by
      rw [hgets] at hall
      exact (congrArg Prod.snd (Option.some.inj hall)).symm
    rw [hs, hlen] at hsize
    exact absurd hsize (by decide)
  · intro h n
    have hzero : d.PositiveTo 0 := fun j hj => absurd hj (Nat.not_lt_zero j)
    obtain ⟨s, hlen, hgets⟩ := gets_at h hzero at_init n
    exact ⟨s, hgets n n (Nat.le_refl n) (Nat.le_refl n), hlen⟩

/-- A descriptor whose reads all fail, such as that of a directory. -/
def failing : Descriptor := ⟨fun _ _ => none, fun _ _ _ h => nomatch h⟩

theorem not_delivers : ¬∀ d, Delivers d := by
  intro h
  obtain ⟨c, s', hget, hlen⟩ := getInputBy_failed (d := failing) at_init rfl
  obtain ⟨s₁, hgets, hsize⟩ := h failing 1
  have hs : s₁ = s' := by
    rw [gets_succ hget] at hgets
    exact (congrArg Prod.snd (Option.some.inj hgets)).symm
  rw [hs, hlen] at hsize
  exact absurd hsize (by decide)

end Libubox.Unformat
