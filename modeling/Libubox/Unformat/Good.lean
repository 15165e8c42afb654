import Libubox.Unformat.Parse

/-!
# The parsers are good

Every function of `unformat.c` returns, unless its call is undefined, and has
moved over the input (`good_vaUnformat`), whatever the user's parse functions it
is given, as long as these do the same.
-/

namespace Libubox.Unformat

/-! ## Directives -/

theorem good_unformatString (delimiter format : UInt8) : Good (unformatString delimiter format) := by
  have hfinish : ∀ stringReturn a atEnd,
      Good (unformatString.finish format stringReturn a atEnd) := by
    intro stringReturn a atEnd
    unfold unformatString.finish
    refine good_ite (fun _ => good_pure _) fun _ => ?_
    refine good_ite (fun _ => good_pure _) fun _ => ?_
    refine good_malloc.bind fun ok => good_ite (fun _ => ?_) fun _ => good_pure _
    exact (good_store _ _).bind fun _ => good_pure _
  unfold unformatString
  refine good_vaPointer.bind fun stringReturn => (good_scan _ _).bind fun r => ?_
  cases r with
  | error => exact good_pure _
  | atEnd a => exact hfinish stringReturn a true
  | done a => exact hfinish stringReturn a false

theorem good_unformatHexString : Good unformatHexString := by
  have hfinish : ∀ hexstringReturn a, Good (unformatHexString.finish hexstringReturn a) := by
    intro hexstringReturn a
    unfold unformatHexString.finish
    refine good_ite (fun _ => good_pure _) fun _ => ?_
    refine good_ite (fun _ => good_pure _) fun _ => ?_
    refine good_malloc.bind fun ok => good_ite (fun _ => ?_) fun _ => good_pure _
    exact (good_store _ _).bind fun _ => good_pure _
  unfold unformatHexString
  refine good_vaPointer.bind fun hexstringReturn => (good_scan _ _).bind fun r => ?_
  cases r with
  | error => exact good_pure _
  | atEnd a => exact hfinish hexstringReturn a
  | done a => exact hfinish hexstringReturn a

theorem good_unformatEof : Good unformatEof := fun s _ => Moves.check s.input

theorem good_unformatInteger (base : Nat) (isSigned : Bool) (dataBytes : Nat) :
    Good (unformatInteger base isSigned dataBytes) := by
  have hfinish : ∀ a, Good (unformatInteger.finish dataBytes a) := by
    intro a
    unfold unformatInteger.finish
    refine good_ite (fun _ => ?_) fun _ => good_pure _
    refine good_vaPointer.bind fun v => good_ite (fun _ => ?_) fun _ => good_pure _
    exact (good_store _ _).bind fun _ => good_pure _
  unfold unformatInteger
  refine good_ite (fun _ => good_pure _) fun _ => (good_scan _ _).bind fun r => ?_
  cases r with
  | error => exact good_pure _
  | atEnd a => exact hfinish a
  | done a => exact hfinish a

theorem good_unformatFloat : Good unformatFloat := by
  have hfinish : ∀ a, Good (unformatFloat.finish a) := by
    intro a
    unfold unformatFloat.finish
    refine good_ite (fun _ => good_pure _) fun _ => good_vaPointer.bind fun valueReturn => ?_
    exact (good_store _ _).bind fun _ => good_pure _
  unfold unformatFloat
  refine (good_scan _ _).bind fun r => ?_
  cases r with
  | error => exact good_pure _
  | atEnd a => exact hfinish a
  | done a => exact hfinish a

theorem good_unformatSkipWhiteSpace : Good unformatSkipWhiteSpace := by
  unfold unformatSkipWhiteSpace
  refine (good_scan _ _).bind fun r => ?_
  cases r <;> exact good_pure _

theorem good_getInput : Good getInput := by
  intro s hok
  obtain ⟨c, j, hget, _⟩ := hok.got
  unfold getInput
  rw [hget]
  exact Moves.get hget

theorem good_matchInputWithFormat (f : List UInt8) : Good (matchInputWithFormat f) := by
  induction f with
  | nil => exact good_pure _
  | cons cf f ih =>
      unfold matchInputWithFormat
      refine good_ite (fun _ => good_pure _) fun _ => good_getInput.bind fun ci => ?_
      exact good_ite (fun _ => ih) fun _ => good_pure _

theorem good_sizeArgument : Good sizeArgument :=
  good_vaInt.bind fun _ => good_pure _

variable (fns : Nat → UserParser)

theorem good_directive (cf : UInt8) (dataBytes : Nat) (f : List UInt8) :
    Good (directive fns cf dataBytes f) := by
  unfold directive
  refine good_ite (fun _ => good_sizeArgument.bind fun n => good_unformatInteger _ _ _) fun _ => ?_
  refine good_ite (fun _ => good_unformatInteger _ _ _) fun _ => ?_
  refine good_ite (fun _ => good_unformatInteger _ _ _) fun _ => ?_
  refine good_ite (fun _ => good_unformatInteger _ _ _) fun _ => ?_
  refine good_ite (fun _ => good_unformatInteger _ _ _) fun _ => ?_
  refine good_ite (fun _ => good_sizeArgument.bind fun n => good_unformatInteger _ _ _) fun _ => ?_
  refine good_ite (fun _ => good_unformatInteger _ _ _) fun _ => ?_
  refine good_ite (fun _ => good_unformatFloat) fun _ => ?_
  refine good_ite (fun _ => good_unformatString _ _) fun _ => ?_
  refine good_ite (fun _ => good_vaFunction.bind fun k =>
    (fns k).good.bind fun n => good_pure _) fun _ => ?_
  refine good_ite (fun _ => good_vaPointer.bind fun var => good_vaInt.bind fun val =>
    (good_store _ _).bind fun _ => good_pure _) fun _ => ?_
  exact good_ite (fun _ => good_vaPointer.bind fun var => good_vaInt.bind fun val =>
    (good_loadInt _).bind fun old => (good_store _ _).bind fun _ => good_pure _)
    fun _ => good_pure _

theorem good_doPercent (f : List UInt8) : Good (doPercent fns f) :=
  (good_directive fns _ _ _).bind fun _ => good_pure _

theorem good_moreInput : Good moreInput := fun s _ => Moves.refl s.input

theorem good_formatTurn (cf : UInt8) (isPercent skip defaultSkip lastPercent lastFormat : Bool)
    (f : List UInt8) :
    Good (formatTurn fns cf isPercent skip defaultSkip lastPercent lastFormat f) := by
  unfold formatTurn
  refine Good.bind (good_ite (fun _ => good_unformatSkipWhiteSpace) fun _ => good_pure _) ?_
  intro nSkipped
  refine good_ite (fun _ => good_moreInput.bind fun more => good_pure _) fun _ => ?_
  refine good_ite (fun _ => good_pure _) fun _ => good_ite (fun _ => ?_) fun _ => ?_
  · refine (good_doPercent fns f).bind fun g => ?_
    cases g <;> exact good_pure _
  · refine (good_matchInputWithFormat f).bind fun g => ?_
    cases g <;> exact good_pure _

/-! ## The loop over the format ends -/

theorem matchInputWithFormat_length (f : List UInt8) :
    Ensures (matchInputWithFormat f) fun g => ∀ g' ∈ g, g'.length ≤ f.length := by
  induction f with
  | nil => exact ensures_pure (by simp)
  | cons cf f ih =>
      unfold matchInputWithFormat
      refine ensures_ite (fun _ => ensures_pure (by simp)) fun _ => Ensures.bind fun ci => ?_
      refine ensures_ite (fun _ => ?_) fun _ => ensures_pure (by simp)
      intro s s' g hg g' hg'
      have hle := ih s s' g hg g' hg'
      rw [List.length_cons]
      omega

theorem sizeLetters_length (f : List UInt8) : (sizeLetters f).2.2.length ≤ f.length := by
  simp only [sizeLetters]
  split_ifs <;> simp only [List.length_drop] <;> omega

theorem doPercent_length (f : List UInt8) :
    Ensures (doPercent fns f) fun g => ∀ g' ∈ g, g'.length ≤ f.length := by
  unfold doPercent
  refine Ensures.bind fun n => ensures_pure ?_
  intro g' hg'
  split at hg'
  · rw [← Option.some.inj hg']
    exact sizeLetters_length f
  · cases hg'

/-- A turn that goes on leaves a format of less than `n` bytes. -/
def Turn.Below (n : Nat) : Turn → Prop
  | .more g _ _ => g.length < n
  | _ => True

section Turns

variable {cf : UInt8} {isPercent skip defaultSkip lastPercent lastFormat : Bool} {f : List UInt8}

theorem formatTurn_below {n : Nat} (hlength : f.length < n) :
    Ensures (formatTurn fns cf isPercent skip defaultSkip lastPercent lastFormat f)
      (Turn.Below n) := by
  unfold formatTurn
  refine Ensures.bind fun nSkipped => ?_
  refine ensures_ite (fun _ => Ensures.bind fun more => ensures_pure ?_) fun _ => ?_
  · split <;> trivial
  refine ensures_ite (fun _ => ensures_pure ?_) fun _ => ensures_ite (fun _ => ?_) fun _ => ?_
  · split
    · trivial
    · exact hlength
  · refine Ensures.bind_of (doPercent_length fns f) fun g hg => ?_
    cases g with
    | none => exact ensures_pure trivial
    | some g => exact ensures_pure ((hg g rfl).trans_lt hlength)
  · refine Ensures.bind_of (matchInputWithFormat_length f) fun g hg => ?_
    cases g with
    | none => exact ensures_pure trivial
    | some g => exact ensures_pure ((hg g rfl).trans_lt hlength)

/-- A character of the format that has no meaning of its own is consumed. -/
theorem formatTurn_plain {n : Nat} (hwhite : isWhiteSpace cf = false) (hpercent : cf ≠ 37)
    (hlength : f.length < n) :
    Ensures (formatTurn fns cf false skip defaultSkip lastPercent lastFormat (cf :: f))
      (Turn.Below n) := by
  have hspace : cf ≠ 32 := by
    intro heq
    simp [heq, isWhiteSpace] at hwhite
  unfold formatTurn
  refine Ensures.bind fun nSkipped => ?_
  refine ensures_ite (fun _ => Ensures.bind fun more => ensures_pure ?_) fun hzero => ?_
  · split <;> trivial
  rw [if_neg (fun h => hspace h.1), if_neg (by decide), matchInputWithFormat, if_neg (by tauto)]
  refine Ensures.bind_of (P := fun g => ∀ g' ∈ g, g'.length ≤ f.length) ?_ fun g hg => ?_
  · refine Ensures.bind fun ci => ensures_ite (fun _ => ?_) fun _ => ensures_pure (by simp)
    exact matchInputWithFormat_length f
  · cases g with
    | none => exact ensures_pure trivial
    | some g => exact ensures_pure ((hg g rfl).trans_lt hlength)

theorem formatTurn_nil {n : Nat} :
    Ensures (formatTurn fns 0 isPercent skip defaultSkip lastPercent lastFormat f)
      (Turn.Below n) := by
  unfold formatTurn
  refine Ensures.bind fun nSkipped => ?_
  rw [if_pos rfl]
  refine Ensures.bind fun more => ensures_pure ?_
  split <;> trivial

end Turns

theorem good_formatLoop (fmt : List UInt8) {fuel : Nat} :
    ∀ (f : List UInt8) (defaultSkip lastPercent lastFormat : Bool), f.length < fuel →
      Good (formatLoop fns fmt fuel f defaultSkip lastPercent lastFormat) := by
  induction fuel with
  | zero => intro f _ _ _ hfuel; omega
  | succ fuel ih =>
      intro f defaultSkip lastPercent lastFormat hfuel
      -- a turn that leaves a shorter format goes on with less fuel
      have hturn : ∀ (cf : UInt8) (isPercent skip : Bool) (g : List UInt8),
          Ensures (formatTurn fns cf isPercent skip defaultSkip lastPercent lastFormat g)
            (Turn.Below fuel) →
          ∀ {next : Turn → Parser Bool}, next .fail = pure false → next .matched = pure true →
          (∀ f lastPercent lastFormat, next (.more f lastPercent lastFormat) =
            formatLoop fns fmt fuel f defaultSkip lastPercent lastFormat) →
          Good (formatTurn fns cf isPercent skip defaultSkip lastPercent lastFormat g >>= next) := by
        intro cf isPercent skip g hensures next hfail hmatched hmore
        refine (good_formatTurn fns _ _ _ _ _ _ _).bind_of hensures fun turn hbelow => ?_
        cases turn with
        | fail => exact hfail ▸ good_pure _
        | matched => exact hmatched ▸ good_pure _
        | more g _ _ => exact hmore g _ _ ▸ ih _ _ _ _ hbelow
      simp only [formatLoop]
      cases f with
      | nil =>
          refine good_ite (fun _ => ?_) fun _ => ?_
          · exact hturn _ _ _ _ (formatTurn_nil fns) rfl rfl fun _ _ _ => rfl
          refine good_ite (fun h => absurd h (by decide)) fun _ => ?_
          exact hturn _ _ _ _ (formatTurn_nil fns) rfl rfl fun _ _ _ => rfl
      | cons cf f =>
          rw [List.length_cons] at hfuel
          simp only [List.headD_cons, List.drop_succ_cons, List.drop_zero]
          refine good_ite (fun hwhite => ?_) fun hwhite => ?_
          · refine hturn _ _ _ _ (formatTurn_below fns ?_) rfl rfl fun _ _ _ => rfl
            rw [List.dropWhile_cons_of_pos hwhite]
            have hle := (List.dropWhile_suffix isWhiteSpace (l := f)).length_le
            omega
          refine good_ite (fun _ => ?_) fun hpercent => ?_
          · refine good_ite (fun _ => ?_) fun _ => ?_
            · refine Good.bind ?_ fun _ => ih _ _ _ _ (by rw [List.length_drop]; omega)
              exact good_ite (fun _ => good_unformatSkipWhiteSpace) fun _ => good_pure _
            have hbelow : f.length < fuel := by omega
            refine good_ite (fun _ => ?_) fun _ => ?_
            · exact hturn _ _ _ _ (formatTurn_below fns hbelow) rfl rfl fun _ _ _ => rfl
            refine good_ite (fun _ => good_pure _) fun _ => ?_
            exact hturn _ _ _ _ (formatTurn_below fns hbelow) rfl rfl fun _ _ _ => rfl
          · exact hturn _ _ _ _ (formatTurn_plain fns (by simpa using hwhite) hpercent (by omega))
              rfl rfl fun _ _ _ => rfl

/-! ## Calls are good -/

/-- A parser between setting a mark and taking it away, up to what it says about
going back. -/
theorem GoodFrom.scope {α β : Type} {x : Parser α} (hx : Good x) {s : State} (hok : Ok s.input)
    {f : α → Parser β}
    (hf : ∀ a s₁, ∃ b back, f a s₁ = .ok (b, { s₁ with input := s₁.input.pop back })) :
    GoodFrom s.input ((pushMark >>= fun _ => x >>= f) s) := by
  show GoodFrom s.input (x { s with input := s.input.push } >>= fun p => f p.1 p.2)
  have hgood := hx { s with input := s.input.push } hok.push
  cases hxs : x { s with input := s.input.push } with
  | error e =>
      rw [hxs] at hgood
      exact hgood
  | ok p =>
      rw [hxs] at hgood
      obtain ⟨b, back, hb⟩ := hf p.1 p.2
      show GoodFrom s.input (f p.1 p.2)
      rw [hb]
      exact Moves.scope back hgood

/-- **A call of `va_unformat`** returns, unless it is undefined, and has moved over
the input. -/
theorem good_vaUnformat (fmt : List UInt8) : Good (vaUnformat fns fmt) := by
  intro s hok
  show GoodFrom s.input ((if s.input.marks.length == MAX_MARKS then _ else _ : Parser Bool) s)
  split
  · exact Moves.refl s.input
  · refine GoodFrom.scope (good_formatLoop fns fmt fmt true false false (Nat.lt_succ_self _)) hok ?_
    exact fun a s₁ => ⟨a, !a, rfl⟩

theorem good_unformat (fmt : List UInt8) (args : List Arg) : Good (unformat fns fmt args) := by
  intro s hok
  have hgood := good_vaUnformat fns fmt { s with va := args } hok
  unfold unformat
  cases hva : vaUnformat fns fmt { s with va := args } with
  | error e =>
      rw [hva] at hgood
      exact hgood
  | ok p =>
      rw [hva] at hgood
      exact hgood

theorem good_unformatUser (func : UserParser) : Good (unformatUser func) := by
  intro s hok
  show GoodFrom s.input ((if s.input.marks.length == MAX_MARKS then _ else _ : Parser Nat) s)
  split
  · exact Moves.refl s.input
  · exact GoodFrom.scope func.good hok fun a s₁ => ⟨a, _, rfl⟩

/-! ## Parse functions for users -/

/-- `unformat_eof`, to be called with `%U`. -/
def eofParser : UserParser := ⟨unformatEof, good_unformatEof⟩

/-- `unformat_hex_string`, to be called with `%U`. -/
def hexStringParser : UserParser := ⟨unformatHexString, good_unformatHexString⟩

/-- A parse function that calls `unformat` in turn, as `unformat_foo` does. -/
def nestedParser (fmt : List UInt8) (args : List Arg) : UserParser where
  run := do
    let ok ← unformat fns fmt args
    pure (if ok then 1 else 0)
  good := (good_unformat fns fmt args).bind fun _ => good_pure _

end Libubox.Unformat
