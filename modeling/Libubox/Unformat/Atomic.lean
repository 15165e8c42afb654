import Libubox.Unformat.Good

/-!
# A failed parse

A call of `va_unformat` that fails goes back to its mark.  The characters that
can be got are then those from before the call exactly if the call did not
refill the buffer, or if what was left of the buffer is found at the front as
well (`vaUnformat_atomic`).
-/

namespace Libubox.Unformat

variable (fns : Nat → UserParser)

/-! ## Inputs -/

/-- The inputs there are: made from a string, a command line or a source of bytes,
and moved over, with marks set on the way. -/
inductive InUse : Input → Prop
  | string (text : List UInt8) : InUse (unformatInitString text)
  | commandLine (args : List (List UInt8)) : InUse (unformatInitCommandLine args)
  | source (src : Option Source) : InUse (unformatInit src)
  | moves {i j : Input} : InUse i → Moves i j → InUse j
  | mark {i : Input} : InUse i → InUse i.push

theorem ok_unformatInit (src : Option Source) : Ok (unformatInit src) where
  size := List.length_replicate
  len := Nat.zero_le _
  index := .inl (Nat.le_refl _)
  marks := by simp [unformatInit]
  sorted := by simp [unformatInit]

/-- Text is added to an input without marks. -/
theorem Ok.buffAdd {i : Input} (h : Ok i) (hmarks : i.marks = []) (hindex : i.index ≤ i.bufferLen)
    (text : List UInt8) : Ok (buffAdd i text) ∧ (buffAdd i text).marks = []
      ∧ (buffAdd i text).index ≤ (buffAdd i text).bufferLen := by
  have hlen := h.len
  have hsize := h.size
  unfold Unformat.buffAdd
  split
  · exact ⟨h, hmarks, hindex⟩
  · have hindex' : i.index ≤ i.bufferLen + text.length := hindex.trans (Nat.le_add_right _ _)
    refine ⟨⟨?_, ?_, .inl hindex', ?_, h.sorted⟩, hmarks, hindex'⟩
    · rw [Bytes.overwrite_length (by omega), hsize]
    · show i.bufferLen + text.length ≤ BUFFER_SIZE
      omega
    · simp [hmarks]

theorem ok_addArguments (args : List (List UInt8)) : ∀ {i : Input}, Ok i → i.marks = [] →
    i.index ≤ i.bufferLen → Ok (addArguments i args) := by
  induction args with
  | nil => exact fun h _ _ => h
  | cons arg args ih =>
      intro i h hmarks hindex
      obtain ⟨h₁, hmarks₁, hindex₁⟩ := h.buffAdd hmarks hindex arg
      cases args with
      | nil => exact h₁
      | cons arg' args =>
          obtain ⟨h₂, hmarks₂, hindex₂⟩ := h₁.buffAdd hmarks₁ hindex₁ [32]
          exact ih h₂ hmarks₂ hindex₂

theorem InUse.ok {i : Input} (h : InUse i) : Ok i := by
  induction h with
  | string text => exact ((ok_unformatInit none).buffAdd rfl (Nat.le_refl _) text).1
  | commandLine args => exact ok_addArguments args (ok_unformatInit none) rfl (Nat.le_refl _)
  | source src => exact ok_unformatInit src
  | moves _ hmoves ih => exact (hmoves.ok ih).1
  | mark _ ih => exact ih.push

/-! ## Calls that fail -/

/-- A call that fails has set a mark, moved and gone back, or has done nothing. -/
theorem vaUnformat_fails {fmt : List UInt8} {s s' : State} (hok : Ok s.input)
    (hfail : vaUnformat fns fmt s = .ok (false, s')) :
    s'.input = s.input ∨ ∃ j, Moves s.input.push j ∧ s'.input = j.pop true := by
  change (if s.input.marks.length == MAX_MARKS then _ else _ : Parser Bool) s = _ at hfail
  split at hfail
  · cases hfail
    exact .inl rfl
  right
  change (formatLoop fns fmt _ fmt true false false { s with input := s.input.push }
    >>= fun p => Except.ok (p.1, { p.2 with input := p.2.input.pop (!p.1) })) = _ at hfail
  have hgood := good_formatLoop fns fmt fmt true false false (Nat.lt_succ_self _)
  cases hloop : formatLoop fns fmt (fmt.length + 1) fmt true false false
      { s with input := s.input.push } with
  | error e =>
      rw [hloop] at hfail
      cases hfail
  | ok p =>
      obtain ⟨matched, s₁⟩ := p
      have hmoves := hgood.moves hok.push hloop
      rw [hloop] at hfail
      cases matched with
      | true => cases hfail
      | false =>
          cases hfail
          exact ⟨s₁.input, hmoves, rfl⟩

/-- The call has not refilled the buffer, or a refill leaves the characters that
are left where the position comes to. -/
def Intact (i j : Input) : Prop := j.fills = i.fills ∨ i.Keeps

theorem vaUnformat_left {fmt : List UInt8} {s s' : State} (hok : Ok s.input)
    (hfail : vaUnformat fns fmt s = .ok (false, s')) :
    Ok s'.input ∧ (s'.input.left = s.input.left ↔ Intact s.input s'.input) := by
  rcases vaUnformat_fails fns hok hfail with hsame | ⟨j, hmoves, hback⟩
  · rw [hsame]
    exact ⟨hok, iff_of_true rfl (.inl rfl)⟩
  · have hmoves' : Moves s.input (j.pop true) := .scope true hmoves
    rw [hback]
    exact ⟨(hmoves'.ok hok).1, hmoves.pop hok⟩

theorem unformat_left {fmt : List UInt8} {args : List Arg} {s s' : State} (hok : Ok s.input)
    (hfail : unformat fns fmt args s = .ok (false, s')) :
    Ok s'.input ∧ (s'.input.left = s.input.left ↔ Intact s.input s'.input) := by
  unfold unformat at hfail
  cases hva : vaUnformat fns fmt { s with va := args } with
  | error e =>
      rw [hva] at hfail
      cases hfail
  | ok p =>
      obtain ⟨r, s₁⟩ := p
      rw [hva] at hfail
      cases hfail
      have hleft := vaUnformat_left fns (s := { s with va := args }) hok hva
      exact hleft

/-- A chain of alternatives that fail one after the other, with the input as each
of them leaves it. -/
inductive Alternatives : State → List Input → Prop
  | nil (s : State) : Alternatives s []
  | cons {s s' : State} {inputs : List Input} (fmt : List UInt8) (args : List Arg) :
      unformat fns fmt args s = .ok (false, s') → Alternatives s' inputs →
      Alternatives s (s'.input :: inputs)

theorem Alternatives.ok {s : State} {inputs : List Input} (h : Alternatives fns s inputs) :
    Ok s.input → ∀ i ∈ inputs, Ok i := by
  induction h with
  | nil s => simp
  | cons fmt args hfail _ ih =>
      intro hok
      have hok' := (unformat_left fns hok hfail).1
      exact List.forall_mem_cons.mpr ⟨hok', ih hok'⟩

theorem Alternatives.left {s : State} {inputs : List Input} (h : Alternatives fns s inputs) :
    Ok s.input → ((∀ i ∈ inputs, i.left = s.input.left) ↔ (s.input :: inputs).IsChain Intact) := by
  induction h with
  | nil s => simp
  | @cons s s' inputs fmt args hfail _ ih =>
      intro hok
      obtain ⟨hok', hleft⟩ := unformat_left fns hok hfail
      rw [List.forall_mem_cons, List.isChain_cons_cons, ← ih hok', ← hleft]
      refine and_congr_right fun hs' => forall₂_congr fun i _ => ?_
      rw [hs']

/-- The input `a1`, of which one character was got. -/
def oneGot : Input := { unformatInitString [97, 49] with index := 1 }

/-- A call without variables on that input. -/
def onOneGot : State := ⟨oneGot, [], fun _ => .integer 4 0, fun _ => true, 0⟩

theorem oneGot_inUse : InUse oneGot :=
  .moves (.string [97, 49]) (.get (c := some 97) (by rfl))

end Libubox.Unformat
