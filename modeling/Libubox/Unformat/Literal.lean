import Libubox.Unformat.RoundTrip

/-!
# Text in a format

A character of a format is matched by itself, and `%%` is meant to match a percent
sign.  `literal_iff` says for which texts this is so: the two loops over the format
both stop at the second percent sign, neither goes past it, and it begins a directive.
-/

namespace Libubox.Unformat

/-! ## What is still to come -/

/-- The characters that were not got yet, whether or not there is room for them. -/
def Input.stream (i : Input) : List UInt8 := i.unread ++ i.rest

variable {i j : Input}

theorem Input.fetch_isPrefix (i : Input) : i.fetch <+: i.rest := by
  unfold Input.fetch
  split
  · exact List.nil_prefix
  · split
    · exact List.prefix_refl _
    · exact List.take_prefix _ _

theorem Input.left_isPrefix (i : Input) : i.left <+: i.stream :=
  (List.prefix_append_right_inj _).mpr i.fetch_isPrefix

theorem Ok.left_end (h : Ok i) (hend : i.index = END_OF_INPUT) : i.left = [] := by
  have hlt := h.len_lt_end
  rw [Input.left, Input.unread_nil (by omega), Input.fetch_end hend]
  rfl

/-- Without marks everything can be got. -/
theorem Ok.stream_eq_left (h : Ok i) (hmarks : i.marks = []) (hne : i.left ≠ []) :
    i.stream = i.left := by
  have hindex : i.index ≠ END_OF_INPUT := fun hend => hne (h.left_end hend)
  rw [Input.stream, Input.left, Input.fetch, if_neg hindex, hmarks]

/-- With a mark set here, as many as the buffer has room for. -/
theorem Ok.left_push (h : Ok i) (hmarks : i.marks = []) :
    i.push.left = i.left.take BUFFER_SIZE := by
  have hpush : i.push.unread = i.unread := rfl
  by_cases hend : i.index = END_OF_INPUT
  · rw [h.push.left_end hend, h.left_end hend, List.take_nil]
  have hindex := h.index.resolve_right hend
  have hunread : i.unread.length = i.bufferLen - i.index := by
    rw [Input.unread, List.length_drop, List.length_take, h.size]
    have := h.len
    omega
  have hle := h.len
  have hfetch : i.push.fetch = i.rest.take (BUFFER_SIZE - (i.bufferLen - i.index)) := by
    unfold Input.fetch Input.push
    rw [if_neg hend, hmarks]
    rfl
  have hall : i.fetch = i.rest := by rw [Input.fetch, if_neg hend, hmarks]
  have htake : i.unread.take BUFFER_SIZE = i.unread := List.take_of_length_le (by omega)
  rw [Input.left, Input.left, hpush, hfetch, hall, List.take_append, hunread, htake]

theorem Got.stream {c : Option UInt8} (h : Ok i) (hgot : Got i c j) :
    i.stream = c.toList ++ j.stream := by
  have hlt := h.len_lt_end
  unfold Input.stream
  cases hgot with
  | atEnd hend => rfl
  | buffered c hbuffered hunread =>
      rw [hunread]
      rfl
  | exhausted hfull hbytes =>
      have hend : i.filled.index = END_OF_INPUT := by simp [Input.filled, hbytes]
      have hlt' := (h.filled hfull).len_lt_end
      rw [Input.unread_nil hfull.ge, Input.unread_nil (i := i.filled) (by omega),
        Input.filled_rest, hbytes]
      rfl
  | refilled c bytes hfull hbytes =>
      obtain ⟨rest, hrest⟩ := i.delivered_isPrefix
      have hunread := h.unread_filled (by simp [hbytes])
      rw [hbytes] at hunread
      have hrest' : Input.rest { i.filled with index := i.filled.index + 1 } = rest := by
        show i.filled.rest = rest
        rw [Input.filled_rest, ← hrest, List.drop_left]
      rw [Input.unread_nil hfull.ge, Input.unread_succ hunread, hrest', ← hrest, hbytes]
      rfl

theorem Got.stream_put {c : UInt8} (h : Ok i) (hgot : Got i (some c) j) :
    (unformatPutInput j).stream = i.stream := by
  have hj := hgot.ok h
  obtain ⟨hne, hpos, -⟩ := hgot.index_pos h
  rw [hj.put_eq hne hpos]
  cases hgot with
  | buffered c hbuffered hunread => rfl
  | refilled c bytes hfull hbytes =>
      obtain ⟨rest, hrest⟩ := i.delivered_isPrefix
      have hunread := h.unread_filled (by simp [hbytes])
      have hback : Input.stream { i.filled with index := i.filled.index + 1 - 1 } =
          i.filled.stream := rfl
      show Input.stream { i.filled with index := i.filled.index + 1 - 1 } = i.stream
      rw [hback, Input.stream, Input.stream, hunread, Input.unread_nil hfull.ge, Input.filled_rest,
        ← hrest, List.drop_left]
      rfl

variable {s : State} {α : Type}

/-- What is ahead is the same in both states. -/
structure Agree (s s' : State) : Prop where
  ok : Ok s'.input
  left : s'.input.left = s.input.left
  stream : s'.input.stream = s.input.stream
  va : s'.va = s.va

/-- A loop that puts back the first character, or stops at the end. -/
theorem scan_putBack (step : α → UInt8 → Next α) (a : α) (h : Ok s.input)
    (hstep : ∀ c ∈ s.input.left.head?, step a c = .putBack a) :
    ∃ r s', scan step a s = .ok (r, s') ∧ (r = .atEnd a ∧ s'.input.index = END_OF_INPUT ∨
      r = .done a) ∧ (s.input.left = [] → r = .atEnd a) ∧ Agree s s' := by
  obtain ⟨c, j, hget, hgot⟩ := h.got
  obtain ⟨hleft, hnil⟩ := hgot.left h
  cases c with
  | none =>
      have hend : j.index = END_OF_INPUT := by
        cases hgot with
        | atEnd hend => exact hend
        | exhausted hfull hbytes => simp [Input.filled, hbytes]
      refine ⟨.atEnd a, { s with input := j }, ?_, .inl ⟨rfl, hend⟩, fun _ => rfl, hgot.ok h,
        hleft.symm, (hgot.stream h).symm, rfl⟩
      unfold scan
      rw [Input.fuel, scanFrom, hget]
      rfl
  | some c =>
      have hc : step a c = .putBack a := hstep c (by rw [hleft]; rfl)
      obtain ⟨hne, hpos, hmarks⟩ := hgot.index_pos h
      refine ⟨.done a, { s with input := unformatPutInput j }, ?_, .inr rfl, ?_,
        (hgot.ok h).put hne hpos hmarks, ?_, hgot.stream_put h, rfl⟩
      · unfold scan
        rw [Input.fuel, scanFrom, hget]
        simp only [hc]
        rfl
      · intro hempty
        rw [hempty] at hleft
        cases hleft
      · show (unformatPutInput j).left = s.input.left
        rw [hgot.left_put h, hleft]
        rfl

/-- Nothing is skipped in front of other characters than white space. -/
theorem skip_agree (h : Ok s.input) (hspace : ∀ c ∈ s.input.left.head?, isWhiteSpace c = false) :
    ∃ s', unformatSkipWhiteSpace s = .ok (0, s') ∧ Agree s s' ∧
      (s.input.left = [] → s'.input.index = END_OF_INPUT) := by
  have hstep : ∀ c ∈ s.input.left.head?,
      (if isWhiteSpace c then .more (0 + 1) else .putBack 0 : Next Nat) = .putBack 0 := by
    intro c hc
    rw [hspace c hc]
    rfl
  obtain ⟨r, s', hscan, hr, hend, hagree⟩ := scan_putBack
    (fun n c => if isWhiteSpace c then .more (n + 1) else .putBack n) 0 h hstep
  refine ⟨s', ?_, hagree, fun hempty => ?_⟩
  · unfold unformatSkipWhiteSpace
    show (scan _ 0 s >>= fun p => _) = _
    rw [hscan]
    rcases hr with ⟨rfl, -⟩ | rfl
    · rfl
    · rfl
  · rcases hr with ⟨-, hindex⟩ | rfl
    · exact hindex
    · cases hend hempty

/-! ## Text that is matched -/

/-- A character of a format that stands for itself. -/
def IsText (c : UInt8) : Prop := c ≠ 0 ∧ c ≠ 37 ∧ isWhiteSpace c = false ∧ c < 128

theorem IsText.ne_space {c : UInt8} (h : IsText c) : c ≠ 32 := by
  intro hc
  have hspace := h.2.2.1
  rw [hc] at hspace
  cases hspace

theorem matchInput_cons {c : UInt8} {c' : Option UInt8} {f : List UInt8} (hc : IsText c)
    (hget : unformatGetInput s.input = some (c', j)) : matchInputWithFormat (c :: f) s =
      if c' = some c then matchInputWithFormat f { s with input := j }
      else .ok (none, { s with input := j }) := by
  have hplain : ¬(c = 0 ∨ c = 37 ∨ c = 32) := by
    rw [not_or, not_or]
    exact ⟨hc.1, hc.2.1, hc.ne_space⟩
  have hin : getInput s = .ok ((c'.map UInt8.toNat).getD END_OF_INPUT, { s with input := j }) := by
    unfold getInput
    rw [hget]
  have hword : charWord c = c.toNat := (charWord_eq c).mpr hc.2.2.2
  have hsame : charWord c = (c'.map UInt8.toNat).getD END_OF_INPUT ↔ c' = some c := by
    rw [hword]
    cases c' with
    | none =>
        have hlt := c.toNat_lt
        refine iff_of_false ?_ (nomatch ·)
        show ¬c.toNat = 2 ^ 64 - 1
        omega
    | some d =>
        show c.toNat = d.toNat ↔ _
        rw [UInt8.toNat_inj, Option.some.injEq, eq_comm]
  rw [matchInputWithFormat, if_neg hplain]
  show (getInput s >>= fun p => (if charWord c = p.1 then matchInputWithFormat f
    else pure none) p.2) = _
  rw [hin]
  show (if charWord c = _ then matchInputWithFormat f else pure none) { s with input := j } = _
  by_cases hc : c' = some c
  · rw [if_pos hc, if_pos (hsame.mpr hc)]
  · rw [if_neg hc, if_neg fun heq => hc (hsame.mp heq)]
    rfl

/-- **Text of a format** is matched by the same text. -/
theorem matchInput_literal {t f : List UInt8} (hf : Stops f) (ht : ∀ c ∈ t, IsText c)
    (h : Ok s.input) :
    ∃ g s', matchInputWithFormat (t ++ f) s = .ok (g, s') ∧
      (t <+: s.input.left → g = some f ∧ Ok s'.input ∧ s.input.left = t ++ s'.input.left ∧
        s.input.stream = t ++ s'.input.stream ∧ s'.va = s.va) ∧
      (¬ t <+: s.input.left → g = none) := by
  induction t generalizing s with
  | nil =>
      refine ⟨some f, s, ?_, fun _ => ⟨rfl, h, rfl, rfl, rfl⟩, fun hnot => absurd List.nil_prefix hnot⟩
      cases f with
      | nil => rfl
      | cons c f =>
          have hc : c = 37 := hf c rfl
          rw [List.nil_append, matchInputWithFormat, if_pos (.inr (.inl hc))]
          rfl
  | cons c t ih =>
      obtain ⟨c', j, hget, hgot⟩ := h.got
      obtain ⟨hleft, hnil⟩ := hgot.left h
      rw [List.cons_append, matchInput_cons (ht c List.mem_cons_self) hget]
      by_cases hc : c' = some c
      · rw [if_pos hc]
        subst hc
        change s.input.left = c :: j.left at hleft
        obtain ⟨g, s', hmatch, hgood, hbad⟩ := @ih { s with input := j }
          (fun c hc => ht c (List.mem_cons_of_mem _ hc)) (hgot.ok h)
        refine ⟨g, s', hmatch, ?_, ?_⟩
        · intro hpre
          rw [hleft, List.cons_prefix_cons] at hpre
          obtain ⟨hg, hok, hrest, hstream, hva⟩ := hgood hpre.2
          refine ⟨hg, hok, ?_, ?_, hva⟩
          · rw [hleft, List.cons_append, ← hrest]
          · rw [hgot.stream h, List.cons_append, ← hstream]
            rfl
        · intro hnot
          refine hbad fun hpre => hnot ?_
          rw [hleft, List.cons_prefix_cons]
          exact ⟨rfl, hpre⟩
      · rw [if_neg hc]
        refine ⟨none, _, rfl, fun hpre => absurd ?_ hc, fun _ => rfl⟩
        obtain ⟨rest, hrest⟩ := hpre
        rw [hleft] at hrest
        cases c' with
        | none =>
            rw [hnil rfl] at hleft
            rw [← hleft] at hrest
            cases hrest
        | some d => rw [(List.cons.inj hrest).1]

/-! ## The loop over the format -/

section Loop

variable {fns : Nat → UserParser} {fmt f : List UInt8} {fuel : Nat}
  {defaultSkip lastPercent lastFormat : Bool}

/-- How the loop goes on behind a turn. -/
def resume (fns : Nat → UserParser) (fmt : List UInt8) (fuel : Nat) (defaultSkip : Bool) :
    Turn → Parser Bool
  | .fail => pure false
  | .matched => pure true
  | .more f lastPercent lastFormat => formatLoop fns fmt fuel f defaultSkip lastPercent lastFormat

theorem formatLoop_text (hspace : isWhiteSpace (f.headD 0) = false) (hpercent : f.headD 0 ≠ 37) :
    formatLoop fns fmt (fuel + 1) f defaultSkip lastPercent lastFormat =
      formatTurn fns (f.headD 0) false (f.length == fmt.length || defaultSkip) defaultSkip
        lastPercent lastFormat f >>= resume fns fmt fuel defaultSkip := by
  rw [formatLoop]
  simp only [hspace, hpercent, Bool.false_eq_true, if_false]
  congr 1

theorem formatLoop_doubled :
    formatLoop fns fmt (fuel + 1) (37 :: 37 :: f) defaultSkip lastPercent lastFormat =
      formatTurn fns 37 false ((37 :: 37 :: f).length == fmt.length || defaultSkip) defaultSkip
        lastPercent lastFormat (37 :: f) >>= resume fns fmt fuel defaultSkip := by
  have hspace : isWhiteSpace 37 = false := rfl
  have htoggle : ¬(37 : UInt8) = 95 := by decide
  rw [formatLoop]
  simp only [List.headD_cons, hspace, htoggle, Bool.false_eq_true, if_false, if_true,
    List.drop_one, List.tail_cons]
  congr 1

theorem formatLoop_toggle :
    formatLoop fns fmt (fuel + 1) (37 :: 95 :: f) defaultSkip lastPercent lastFormat =
      toggleTurn fmt f (!defaultSkip) >>= fun _ =>
        formatLoop fns fmt fuel f (!defaultSkip) lastPercent lastFormat := by
  have hspace : isWhiteSpace 37 = false := rfl
  rw [formatLoop]
  simp only [List.headD_cons, hspace, Bool.false_eq_true, if_false, if_true, List.drop_one,
    List.tail_cons]

theorem formatLoop_open :
    formatLoop fns fmt (fuel + 1) [37] defaultSkip lastPercent lastFormat = pure false := by
  have hspace : isWhiteSpace 37 = false := rfl
  rw [formatLoop]
  simp only [List.headD_cons, hspace, Bool.false_eq_true, if_false, if_true, List.drop_one,
    List.tail_cons, List.headD_nil]
  rfl

theorem formatLoop_directive {c : UInt8} (hletter : c ∉ [95, 37, 0]) :
    formatLoop fns fmt (fuel + 1) (37 :: c :: f) defaultSkip lastPercent lastFormat =
      formatTurn fns 37 true ((37 :: c :: f).length == fmt.length || defaultSkip) defaultSkip
        lastPercent lastFormat (c :: f) >>= resume fns fmt fuel defaultSkip := by
  simp only [List.mem_cons, List.not_mem_nil, or_false, not_or] at hletter
  obtain ⟨htoggle, hpercent, hend⟩ := hletter
  have hspace : isWhiteSpace 37 = false := rfl
  rw [formatLoop]
  simp only [List.headD_cons, hspace, htoggle, hpercent, hend, Bool.false_eq_true, if_false,
    if_true, List.drop_one, List.tail_cons]
  congr 1

/-! ## Behind a percent sign -/

/-- A percent sign is ahead, and there are no arguments. -/
structure Percent (w : List UInt8) (s : State) : Prop where
  ok : Ok s.input
  va : s.va = []
  stream : s.input.stream = 37 :: w

variable {w : List UInt8}

theorem Percent.head (h : Percent w s) : ∀ c ∈ s.input.left.head?, c = 37 := by
  intro c hc
  obtain ⟨rest, hrest⟩ := s.input.left_isPrefix
  rw [h.stream] at hrest
  cases hleft : s.input.left with
  | nil =>
      rw [hleft] at hc
      cases hc
  | cons c' left =>
      rw [hleft] at hc hrest
      cases hc
      exact (List.cons.inj hrest).1

theorem Percent.agree {s' : State} (h : Percent w s) (hagree : Agree s s') : Percent w s' :=
  ⟨hagree.ok, hagree.va.trans h.va, hagree.stream.trans h.stream⟩

theorem Percent.skips (h : Percent w s) (skip : Bool) :
    ∃ s', (if skip then unformatSkipWhiteSpace else pure 0 : Parser Nat) s = .ok (0, s') ∧
      Percent w s' := by
  cases skip with
  | false => exact ⟨s, rfl, h⟩
  | true =>
      have hspace : ∀ c ∈ s.input.left.head?, isWhiteSpace c = false := by
        intro c hc
        rw [h.head c hc]
        rfl
      obtain ⟨s', hskip, hagree, -⟩ := skip_agree h.ok hspace
      exact ⟨s', hskip, h.agree hagree⟩

/-- A loop for which a percent sign is the end. -/
theorem Percent.scan (h : Percent w s) (step : α → UInt8 → Next α) (a : α)
    (hstep : step a 37 = .putBack a) :
    ∃ r s', Unformat.scan step a s = .ok (r, s') ∧ (r = .atEnd a ∨ r = .done a) := by
  obtain ⟨r, s', hscan, hr, -, -⟩ := scan_putBack step a h.ok fun c hc => by
    rw [h.head c hc]
    exact hstep
  exact ⟨r, s', hscan, hr.imp And.left id⟩

/-- The result is not a success. -/
def Fails (r : Except Fault (Bool × State)) : Prop := ∀ s', r ≠ .ok (true, s')

theorem fails_ite {p : Prop} [Decidable p] {x y : Parser Bool} (hx : Fails (x s))
    (hy : Fails (y s)) : Fails ((if p then x else y) s) := by
  split
  · exact hx
  · exact hy

theorem unformatInteger_percent (base : Nat) (isSigned : Bool) (dataBytes : Nat)
    (h : Percent w s) : Fails (unformatInteger base isSigned dataBytes s) := by
  intro s' hrun
  unfold unformatInteger at hrun
  split at hrun
  · cases hrun
  · obtain ⟨r, s₁, hscan, hr⟩ :=
      h.scan (integerStep base isSigned) ⟨0, 0, 0, false⟩ rfl
    change (scan (integerStep base isSigned) ⟨0, 0, 0, false⟩ s >>= fun p => _) = _ at hrun
    rw [hscan] at hrun
    rcases hr with rfl | rfl
    · cases hrun
    · cases hrun

theorem unformatFloat_percent (h : Percent w s) : Fails (unformatFloat s) := by
  intro s' hrun
  obtain ⟨r, s₁, hscan, hr⟩ :=
    h.scan floatStep ⟨fun _ => 0, fun _ => 0, 0, fun _ => false, 0, 0⟩ rfl
  unfold unformatFloat at hrun
  change (scan floatStep _ s >>= fun p => _) = _ at hrun
  rw [hscan] at hrun
  rcases hr with rfl | rfl
  · cases hrun
  · cases hrun

variable (fns)

/-- **No directive** matches a percent sign when there are no arguments. -/
theorem directive_percent (cf : UInt8) (dataBytes : Nat) (f : List UInt8) (h : Percent w s) :
    Fails (directive fns cf dataBytes f s) := by
  have hint : vaInt s = .error .undefined := by
    unfold vaInt
    rw [h.va]
  have hpointer : vaPointer s = .error .undefined := by
    unfold vaPointer
    rw [h.va]
  have hfunction : vaFunction s = .error .undefined := by
    unfold vaFunction
    rw [h.va]
  have hbind : ∀ {β : Type} {x : Parser β} {k : β → Parser Bool}, x s = .error .undefined →
      Fails ((x >>= k) s) := by
    intro β x k hx s' hrun
    change (x s >>= fun p => k p.1 p.2) = _ at hrun
    rw [hx] at hrun
    cases hrun
  have hsize : sizeArgument s = .error .undefined := by
    unfold sizeArgument
    show (vaInt s >>= fun p => _) = _
    rw [hint]
    rfl
  unfold directive
  refine fails_ite (hbind hsize) ?_
  refine fails_ite (unformatInteger_percent 10 true dataBytes h) ?_
  refine fails_ite (unformatInteger_percent 10 false dataBytes h) ?_
  refine fails_ite (unformatInteger_percent 2 false dataBytes h) ?_
  refine fails_ite (unformatInteger_percent 8 false dataBytes h) ?_
  refine fails_ite (hbind hsize) ?_
  refine fails_ite (unformatInteger_percent 16 false dataBytes h) ?_
  refine fails_ite (unformatFloat_percent h) ?_
  refine fails_ite (hbind hpointer) ?_
  refine fails_ite (hbind hfunction) ?_
  refine fails_ite (hbind hpointer) (fails_ite (hbind hpointer) ?_)
  exact fun s' hrun => nomatch hrun

theorem formatTurn_directive (h : Percent w s) (skip defaultSkip lastPercent lastFormat : Bool)
    (f : List UInt8) : Fails ((formatTurn fns 37 true skip defaultSkip lastPercent lastFormat f >>=
      resume fns fmt fuel defaultSkip) s) := by
  obtain ⟨s₁, hskip, h₁⟩ := h.skips skip
  intro s' hrun
  unfold formatTurn at hrun
  change (((if skip then unformatSkipWhiteSpace else pure 0 : Parser Nat) s >>= fun p => _) >>=
    fun p : Turn × State => resume fns fmt fuel defaultSkip p.1 p.2) = _ at hrun
  rw [hskip] at hrun
  change ((doPercent fns f s₁ >>= fun p => _) >>= fun p : Turn × State =>
    resume fns fmt fuel defaultSkip p.1 p.2) = _ at hrun
  have hfails := directive_percent fns (sizeLetters f).2.1 (sizeLetters f).1
    (sizeLetters f).2.2 h₁
  have hpercent : doPercent fns f s₁ = (directive fns (sizeLetters f).2.1 (sizeLetters f).1
      (sizeLetters f).2.2 s₁ >>= fun p : Bool × State =>
        .ok (if p.1 then some (sizeLetters f).2.2 else none, p.2)) := rfl
  rw [hpercent] at hrun
  cases hdirective : directive fns (sizeLetters f).2.1 (sizeLetters f).1 (sizeLetters f).2.2 s₁ with
  | error e =>
      rw [hdirective] at hrun
      cases hrun
  | ok p =>
      rw [hdirective] at hrun
      obtain ⟨matched, s₂⟩ := p
      cases matched with
      | true => exact hfails s₂ hdirective
      | false => cases hrun

theorem formatTurn_doubled (h : Percent w s) (skip defaultSkip lastPercent lastFormat : Bool)
    (f : List UInt8) : ∃ s', formatTurn fns 37 false skip defaultSkip lastPercent lastFormat
      (37 :: f) s = .ok (.more (37 :: f) false false, s') ∧ Percent w s' := by
  obtain ⟨s₁, hskip, h₁⟩ := h.skips skip
  refine ⟨s₁, ?_, h₁⟩
  unfold formatTurn
  show ((if skip then unformatSkipWhiteSpace else pure 0 : Parser Nat) s >>= fun p => _) = _
  rw [hskip]
  show (Except.ok (Turn.more (37 :: f) false (decide ((37 :: f).length < (37 :: f).length)), s₁)) = _
  simp

theorem formatTurn_text (h : Percent w s) (skip defaultSkip lastPercent lastFormat : Bool) {c : UInt8}
    (f : List UInt8) (hc : IsText c) :
    ∃ s', formatTurn fns c false skip defaultSkip lastPercent lastFormat (c :: f) s =
      .ok (.fail, s') := by
  obtain ⟨s₁, hskip, h₁⟩ := h.skips skip
  obtain ⟨c', j, hget, hgot⟩ := h₁.ok.got
  have hdiffers : ¬c' = some c := by
    intro heq
    have hleft := (hgot.left h₁.ok).1
    rw [heq] at hleft
    exact hc.2.1 (h₁.head c (by rw [hleft]; rfl))
  have hmatch := matchInput_cons (f := f) hc hget
  rw [if_neg hdiffers] at hmatch
  refine ⟨{ s₁ with input := j }, ?_⟩
  unfold formatTurn
  show ((if skip then unformatSkipWhiteSpace else pure 0 : Parser Nat) s >>= fun p => _) = _
  rw [hskip]
  simp only [hc.1, hc.ne_space, false_and, if_false, Bool.false_eq_true]
  show (matchInputWithFormat (c :: f) s₁ >>= fun p => _) = _
  rw [hmatch]
  rfl

theorem formatTurn_last (h : Percent w s) (skip defaultSkip lastPercent lastFormat : Bool) :
    ∃ turn s', formatTurn fns 0 false skip defaultSkip lastPercent lastFormat [] s =
      .ok (turn, s') ∧ Percent w s' ∧ (turn = .fail ∨ turn = .matched) := by
  obtain ⟨s₁, hskip, h₁⟩ := h.skips skip
  refine ⟨if skip && !lastPercent && !lastFormat && 0 == 0 && (s₁.input.index != END_OF_INPUT)
    then .fail else .matched, s₁, ?_, h₁, ?_⟩
  · unfold formatTurn
    show ((if skip then unformatSkipWhiteSpace else pure 0 : Parser Nat) s >>= fun p => _) = _
    rw [hskip]
    rfl
  · split
    · exact .inl rfl
    · exact .inr rfl

variable {fns}

/-- A text as a format. -/
def doubled (t : List UInt8) : List UInt8 := t.flatMap fun c => if c = 37 then [37, 37] else [c]

theorem doubled_percent (u : List UInt8) : doubled (37 :: u) = 37 :: 37 :: doubled u := rfl

theorem doubled_text {c : UInt8} (hc : IsText c) (u : List UInt8) :
    doubled (c :: u) = c :: doubled u := by
  rw [doubled, List.flatMap_cons, if_neg hc.2.1]
  rfl

theorem doubled_append (t u : List UInt8) : doubled (t ++ u) = doubled t ++ doubled u :=
  List.flatMap_append

theorem doubled_of_text {t : List UInt8} (ht : ∀ c ∈ t, IsText c) : doubled t = t := by
  induction t with
  | nil => rfl
  | cons c t ih =>
      rw [doubled_text (ht c List.mem_cons_self), ih fun c hc => ht c (List.mem_cons_of_mem _ hc)]

/-- The percent sign stays ahead if the loop is successful. -/
def Stays (w : List UInt8) (x : Parser Bool) : Prop :=
  ∀ s s', Percent w s → x s = .ok (true, s') → Percent w s'

theorem stays_resume {x : Parser Turn} {defaultSkip : Bool} {turn : Turn} {s₁ : State}
    (hx : x s = .ok (turn, s₁)) {s' : State}
    (hrun : (x >>= resume fns fmt fuel defaultSkip) s = .ok (true, s')) :
    resume fns fmt fuel defaultSkip turn s₁ = .ok (true, s') := by
  change (x s >>= fun p : Turn × State => resume fns fmt fuel defaultSkip p.1 p.2) = _ at hrun
  rw [hx] at hrun
  exact hrun

/-- **In front of a percent sign** the format of a text is not matched by it, and
neither is what begins with the second of two percent signs. -/
theorem formatLoop_stays (fns : Nat → UserParser) (fmt : List UInt8) {u : List UInt8} (hu : ∀ c ∈ u, c = 37 ∨ IsText c) (fuel : Nat)
    (defaultSkip lastPercent lastFormat : Bool) :
    Stays w (formatLoop fns fmt fuel (doubled u) defaultSkip lastPercent lastFormat) ∧
      Stays w (formatLoop fns fmt fuel (37 :: doubled u) defaultSkip lastPercent lastFormat) := by
  induction u generalizing fuel defaultSkip lastPercent lastFormat with
  | nil =>
      cases fuel with
      | zero => exact ⟨fun s s' _ hrun => (nomatch hrun), fun s s' _ hrun => (nomatch hrun)⟩
      | succ fuel =>
          refine ⟨fun s s' h hrun => ?_, fun s s' h hrun => ?_⟩
          · have hspace : isWhiteSpace (([] : List UInt8).headD 0) = false := rfl
            rw [doubled, List.flatMap_nil, formatLoop_text hspace (by decide)] at hrun
            obtain ⟨turn, s₁, hturn, h₁, hcases⟩ := formatTurn_last fns h _ defaultSkip
              lastPercent lastFormat
            have hend := stays_resume hturn hrun
            rcases hcases with rfl | rfl
            · cases hend
            · cases hend
              exact h₁
          · have hopen : 37 :: doubled [] = [37] := rfl
            rw [hopen, formatLoop_open] at hrun
            cases hrun
  | cons c u ih =>
      have hrest : ∀ c ∈ u, c = 37 ∨ IsText c := fun c hc => hu c (List.mem_cons_of_mem _ hc)
      -- behind the first of two percent signs the loop comes to the second
      have hsecond : ∀ {fuel : Nat} {f : List UInt8} {defaultSkip lastPercent lastFormat : Bool},
          (∀ fuel lastPercent lastFormat, Stays w
            (formatLoop fns fmt fuel (37 :: f) defaultSkip lastPercent lastFormat)) →
          Stays w (formatLoop fns fmt fuel (37 :: 37 :: f) defaultSkip lastPercent lastFormat) := by
        intro fuel f defaultSkip lastPercent lastFormat hstays
        cases fuel with
        | zero => exact fun s s' _ hrun => nomatch hrun
        | succ fuel =>
            intro s s' h hrun
            rw [formatLoop_doubled] at hrun
            obtain ⟨s₁, hturn, h₁⟩ := formatTurn_doubled fns h _ defaultSkip lastPercent
              lastFormat f
            exact hstays fuel false false s₁ s' h₁ (stays_resume hturn hrun)
      rcases hu c List.mem_cons_self with rfl | hc
      · rw [doubled_percent]
        have hpair : ∀ fuel lastPercent lastFormat, Stays w (formatLoop fns fmt fuel
            (37 :: 37 :: doubled u) defaultSkip lastPercent lastFormat) :=
          fun fuel lastPercent lastFormat => hsecond fun fuel lastPercent lastFormat =>
            (ih hrest fuel defaultSkip lastPercent lastFormat).2
        exact ⟨hpair fuel lastPercent lastFormat, hsecond hpair⟩
      · rw [doubled_text hc]
        cases fuel with
        | zero => exact ⟨fun s s' _ hrun => (nomatch hrun), fun s s' _ hrun => (nomatch hrun)⟩
        | succ fuel =>
            refine ⟨fun s s' h hrun => ?_, fun s s' h hrun => ?_⟩
            · rw [formatLoop_text (f := c :: doubled u) hc.2.2.1 hc.2.1] at hrun
              obtain ⟨s₁, hturn⟩ := formatTurn_text fns h _ defaultSkip lastPercent
                lastFormat (doubled u) hc
              cases stays_resume hturn hrun
            · by_cases htoggle : c = 95
              · rw [htoggle, formatLoop_toggle] at hrun
                obtain ⟨s₁, hskip, h₁⟩ := h.skips (!(!defaultSkip) && !((doubled u).length + 2 ==
                  fmt.length || (doubled u).headD 0 == 0))
                change (toggleTurn fmt (doubled u) (!defaultSkip) s >>= fun p => formatLoop fns fmt
                  fuel (doubled u) (!defaultSkip) lastPercent lastFormat p.2) = _ at hrun
                rw [toggleTurn, hskip] at hrun
                exact (ih hrest fuel (!defaultSkip) lastPercent lastFormat).1 s₁ s' h₁ hrun
              · have hletter : c ∉ [95, 37, 0] := by
                  simp [htoggle, hc.1, hc.2.1]
                rw [formatLoop_directive hletter] at hrun
                exact absurd hrun (formatTurn_directive fns h _ defaultSkip lastPercent lastFormat _ s')

/-! ## Texts without percent signs -/

/-- The loop over the format comes to the end of a text, if the input goes on with it. -/
theorem formatLoop_matches (fns : Nat → UserParser) (fmt : List UInt8) (fuel : Nat)
    (lastPercent lastFormat : Bool) {p : List UInt8} (hne : p ≠ []) (hp : ∀ c ∈ p, IsText c) (hf : Stops f)
    (h : Ok s.input) (hspace : ∀ c ∈ s.input.left.head?, isWhiteSpace c = false) :
    ∃ s', (p <+: s.input.left →
        formatLoop fns fmt (fuel + 1) (p ++ f) true lastPercent lastFormat s =
          formatLoop fns fmt fuel f true false true s' ∧ Ok s'.input ∧
        s.input.left = p ++ s'.input.left ∧ s.input.stream = p ++ s'.input.stream ∧
        s'.va = s.va) ∧
      (¬p <+: s.input.left →
        formatLoop fns fmt (fuel + 1) (p ++ f) true lastPercent lastFormat s = .ok (false, s')) := by
  obtain ⟨s₁, hskip, hagree, -⟩ := skip_agree h hspace
  obtain ⟨g, s₂, hmatch, hgood, hbad⟩ := matchInput_literal hf hp hagree.ok
  rw [hagree.left, hagree.stream, hagree.va] at hgood
  rw [hagree.left] at hbad
  obtain ⟨c, p, rfl⟩ := List.exists_cons_of_ne_nil hne
  have hc : IsText c := hp c List.mem_cons_self
  have hturn : formatTurn fns c false true true lastPercent lastFormat (c :: p ++ f) s
      = .ok (g.elim .fail fun g => .more g false (decide (g.length < (c :: p ++ f).length)),
          s₂) := by
    unfold formatTurn
    show (unformatSkipWhiteSpace s >>= fun p => _) = _
    rw [hskip]
    simp only [hc.1, if_false, Bool.true_eq_false, and_false, Bool.false_eq_true]
    show (matchInputWithFormat (c :: p ++ f) s₁ >>= fun p => _) = _
    rw [hmatch]
    cases g <;> rfl
  have hloop := @formatLoop_plain s fns fmt (c :: p ++ f) fuel lastPercent lastFormat _ s₂
    hc.2.2.1 hc.2.1 hturn
  refine ⟨s₂, fun hpre => ?_, fun hnot => ?_⟩
  · obtain ⟨rfl, hrest⟩ := hgood hpre
    have hshorter : f.length < (c :: p ++ f).length := by
      rw [List.length_append, List.length_cons]
      omega
    rw [hloop, Option.elim_some, decide_eq_true hshorter]
    exact ⟨rfl, hrest⟩
  · rw [hloop, hbad hnot]
    rfl

/-- The end of the format behind a text. -/
theorem formatLoop_end (fns : Nat → UserParser) (fmt : List UInt8) (fuel : Nat) (h : Ok s.input) (hspace : ∀ c ∈ s.input.left.head?, isWhiteSpace c = false) :
    ∃ s', formatLoop fns fmt (fuel + 1) [] true false true s = .ok (true, s') ∧
      s'.input.stream = s.input.stream := by
  obtain ⟨s₁, hskip, hagree, -⟩ := skip_agree h hspace
  refine ⟨s₁, ?_, hagree.stream⟩
  have hturn : formatTurn fns 0 false true true false true [] s = .ok (.matched, s₁) := by
    unfold formatTurn
    show (unformatSkipWhiteSpace s >>= fun p => _) = _
    rw [hskip]
    rfl
  exact formatLoop_plain (f := []) rfl (by decide) hturn

end Loop

/-! ## The call -/

variable {fns : Nat → UserParser} {t : List UInt8}

theorem unformat_eq (fmt : List UInt8) (args : List Arg) (hmarks : s.input.marks = []) :
    unformat fns fmt args s =
      (formatLoop fns fmt (fmt.length + 1) fmt true false false
        { s with va := args, input := s.input.push }).map fun p =>
          (p.1, { p.2 with input := p.2.input.pop (!p.1), va := s.va }) := by
  have hfull : (s.input.marks.length == MAX_MARKS) = false := by
    rw [hmarks]
    rfl
  unfold unformat
  have hcall : vaUnformat fns fmt { s with va := args } =
      (formatLoop fns fmt (fmt.length + 1) fmt true false false
        { s with va := args, input := s.input.push }).map fun p =>
          (p.1, { p.2 with input := p.2.input.pop (!p.1) }) := by
    show (if s.input.marks.length == MAX_MARKS then _ else _ : Parser Bool) _ = _
    rw [hfull]
    show (formatLoop fns fmt _ fmt true false false
      { s with va := args, input := s.input.push } >>= fun p => _) = _
    cases formatLoop fns fmt (fmt.length + 1) fmt true false false
      { s with va := args, input := s.input.push } with
    | error e => rfl
    | ok p => rfl
  rw [hcall]
  cases formatLoop fns fmt (fmt.length + 1) fmt true false false
    { s with va := args, input := s.input.push } with
  | error e => rfl
  | ok p => rfl

/-- Neither a percent sign nor white space. -/
theorem unformat_text (fns : Nat → UserParser) (hne : t ≠ []) (ht : ∀ c ∈ t, IsText c) (h : Ok s.input)
    (hmarks : s.input.marks = []) (hspace : ∀ c ∈ s.input.left, isWhiteSpace c = false) :
    ∃ s', (t <+: s.input.left.take BUFFER_SIZE → unformat fns t [] s = .ok (true, s') ∧
        s.input.stream = t ++ s'.input.stream) ∧
      (¬t <+: s.input.left.take BUFFER_SIZE → unformat fns t [] s = .ok (false, s')) := by
  have hpush := h.left_push hmarks
  have hhead : ∀ c ∈ s.input.push.left.head?, isWhiteSpace c = false := by
    intro c hc
    rw [hpush] at hc
    exact hspace c (List.mem_of_mem_take (List.mem_of_mem_head? hc))
  have hnil : ∀ c ∈ ([] : List UInt8).head?, c = 37 := fun c hc => nomatch hc
  obtain ⟨s₁, hgood, hbad⟩ := formatLoop_matches fns t t.length false false hne ht hnil
    (s := { s with va := [], input := s.input.push }) h.push hhead
  have hleft : ({ s with va := [], input := s.input.push } : State).input.left =
      s.input.left.take BUFFER_SIZE := hpush
  rw [List.append_nil, hleft] at hgood hbad
  by_cases hpre : t <+: s.input.left.take BUFFER_SIZE
  · obtain ⟨hloop, hok, hrest, hstream, -⟩ := hgood hpre
    obtain ⟨k, hk⟩ := Nat.exists_eq_succ_of_ne_zero fun hzero => hne (List.length_eq_zero_iff.mp hzero)
    obtain ⟨s₂, hend, hsame⟩ := formatLoop_end fns t k hok fun c hc =>
      hspace c (List.mem_of_mem_take (hrest ▸ List.mem_append_right t (List.mem_of_mem_head? hc)))
    refine ⟨{ s₂ with input := s₂.input.pop false, va := s.va }, fun _ => ⟨?_, ?_⟩,
      fun hnot => absurd hpre hnot⟩
    · rw [unformat_eq t [] hmarks, hloop, hk, hend]
      rfl
    · have hpop : (s₂.input.pop false).stream = s₂.input.stream := rfl
      have hpushed : s.input.push.stream = s.input.stream := rfl
      rw [hpop, hsame, ← hpushed]
      exact hstream
  · refine ⟨{ s₁ with input := s₁.input.pop true, va := s.va }, fun h => absurd h hpre,
      fun hnot => ?_⟩
    rw [unformat_eq t [] hmarks, hbad hnot]
    rfl

/-- **A text with a percent sign** does not match itself. -/
theorem unformat_percent {p u : List UInt8} (hp : ∀ c ∈ p, IsText c)
    (hu : ∀ c ∈ u, c = 37 ∨ IsText c) (h : Ok s.input) (hmarks : s.input.marks = [])
    (hspace : ∀ c ∈ s.input.left, isWhiteSpace c = false) (hstream : s.input.stream = p ++ 37 :: u)
    {s' : State} (hrun : unformat fns (doubled (p ++ 37 :: u)) [] s = .ok (true, s')) :
    s'.input.stream ≠ [] := by
  have hformat : doubled (p ++ 37 :: u) = p ++ doubled (37 :: u) := by
    rw [doubled_append, doubled_of_text hp]
  have hhead : ∀ c ∈ s.input.push.left.head?, isWhiteSpace c = false := by
    intro c hc
    rw [h.left_push hmarks] at hc
    exact hspace c (List.mem_of_mem_take (List.mem_of_mem_head? hc))
  have hall : ∀ c ∈ 37 :: u, c = 37 ∨ IsText c := by
    intro c hc
    rcases List.mem_cons.mp hc with rfl | hc
    · exact .inl rfl
    · exact hu c hc
  rw [unformat_eq _ [] hmarks, hformat] at hrun
  generalize hfmt : p ++ doubled (37 :: u) = fmt at hrun
  have hloop : ∃ s₁, formatLoop fns fmt (fmt.length + 1) fmt true false false
      { s with va := [], input := s.input.push } = .ok (true, s₁) ∧
      s'.input.stream = s₁.input.stream := by
    cases hresult : formatLoop fns fmt (fmt.length + 1) fmt true false false
      { s with va := [], input := s.input.push } with
    | error e =>
        rw [hresult] at hrun
        cases hrun
    | ok r =>
        obtain ⟨ok, s₁⟩ := r
        rw [hresult] at hrun
        cases ok with
        | true =>
            refine ⟨s₁, rfl, ?_⟩
            cases hrun
            rfl
        | false => cases hrun
  obtain ⟨s₁, hloop, hend⟩ := hloop
  have hpercent : Percent u s₁ := by
    cases p with
    | nil =>
        rw [List.nil_append] at hstream hfmt
        have hstart : Percent u { s with va := [], input := s.input.push } := ⟨h.push, rfl, hstream⟩
        have hstays : Stays u _ :=
          (formatLoop_stays fns fmt hall (fmt.length + 1) true false false).1
        rw [hfmt] at hstays
        exact hstays _ s₁ hstart hloop
    | cons c p =>
        have hstops : Stops (doubled (37 :: u)) := by
          intro c hc
          cases hc
          rfl
        obtain ⟨s₂, hgood, hbad⟩ := formatLoop_matches fns fmt fmt.length false false
          (List.cons_ne_nil c p) hp hstops (s := { s with va := [], input := s.input.push }) h.push
          hhead
        rw [hfmt, hloop] at hgood hbad
        by_cases hpre : c :: p <+: s.input.push.left
        · obtain ⟨hrest, hok, -, hstream', hva⟩ := hgood hpre
          have hpushed : s.input.push.stream = c :: p ++ 37 :: u := hstream
          have hstart : Percent u s₂ :=
            ⟨hok, hva, (List.append_cancel_left (hpushed.symm.trans hstream')).symm⟩
          exact (formatLoop_stays fns fmt hall fmt.length true false true).1 s₂ s₁ hstart hrest.symm
        · cases hbad hpre
  rw [hend, hpercent.stream]
  exact List.cons_ne_nil 37 u

/-- A printable character other than a space. -/
def IsPrintable (c : UInt8) : Prop := 33 ≤ c ∧ c ≤ 126

instance (c : UInt8) : Decidable (IsPrintable c) := inferInstanceAs (Decidable (_ ∧ _))

theorem IsPrintable.space {c : UInt8} (h : IsPrintable c) : isWhiteSpace c = false := by
  have hlow : 33 ≤ c.toNat := h.1
  unfold isWhiteSpace
  simp only [Bool.or_eq_false_iff, beq_eq_false_iff_ne]
  refine ⟨⟨⟨?_, ?_⟩, ?_⟩, ?_⟩
  all_goals
    rintro rfl
    exact absurd hlow (by decide)

theorem IsPrintable.isText {c : UInt8} (h : IsPrintable c) (hc : c ≠ 37) : IsText c := by
  refine ⟨?_, hc, h.space, ?_⟩
  · rintro rfl
    exact absurd h.1 (by decide)
  · have hhigh : c.toNat ≤ 126 := h.2
    show c.toNat < 128
    omega

/-- An input that consists of a text. -/
structure Consists (s : State) (text : List UInt8) : Prop where
  ok : Ok s.input
  marks : s.input.marks = []
  left : s.input.left = text

/-- The doubled text matches the text, and all of it, and nothing that does not start
with it. -/
def Literal (fns : Nat → UserParser) (t : List UInt8) : Prop :=
  (∀ s, Consists s t → ∃ s', unformat fns (doubled t) [] s = .ok (true, s') ∧
      s'.input.stream = []) ∧
    ∀ s u, (∀ c ∈ u, IsPrintable c) → ¬t <+: u → Consists s u →
      ∃ s', unformat fns (doubled t) [] s = .ok (false, s')

/-- A file with a text. -/
def fileOf (text : List UInt8) : State :=
  ⟨unformatInit (some ⟨text, fun _ => 1, 0⟩), [], fun _ => .integer 4 0, fun _ => true, 0⟩

theorem consists_fileOf (text : List UInt8) : Consists (fileOf text) text :=
  ⟨ok_unformatInit _, rfl, rfl⟩

/-- **Literal text.**  A text is matched by itself exactly if there is no percent sign
in it and the buffer has room for it. -/
theorem literal_iff (hne : t ≠ []) (ht : ∀ c ∈ t, IsPrintable c) :
    Literal fns t ↔ 37 ∉ t ∧ t.length ≤ BUFFER_SIZE := by
  constructor
  · intro hliteral
    have hfile := consists_fileOf t
    obtain ⟨s', hrun, hend⟩ := hliteral.1 (fileOf t) hfile
    have hspace : ∀ c ∈ (fileOf t).input.left, isWhiteSpace c = false :=
      fun c hc => (ht c (hfile.left ▸ hc)).space
    have hpercent : 37 ∉ t := by
      intro hmem
      obtain ⟨p, u, rfl, hp⟩ := List.eq_append_cons_of_mem hmem
      have hstream : (fileOf (p ++ 37 :: u)).input.stream = p ++ 37 :: u := rfl
      refine unformat_percent (fun c hc => ?_) (fun c hc => ?_) hfile.ok hfile.marks hspace hstream
        hrun hend
      · exact (ht c (by simp [hc])).isText fun heq => hp (heq ▸ hc)
      · by_cases hc37 : c = 37
        · exact .inl hc37
        · exact .inr ((ht c (by simp [hc])).isText hc37)
    refine ⟨hpercent, ?_⟩
    have htext : ∀ c ∈ t, IsText c := fun c hc => (ht c hc).isText fun heq => hpercent (heq ▸ hc)
    obtain ⟨s'', -, hbad⟩ := unformat_text fns hne htext hfile.ok hfile.marks hspace
    by_contra hlong
    have hfails := hbad fun hpre => hlong ?_
    · rw [doubled_of_text htext, hfails] at hrun
      cases hrun
    · have hle := hpre.length_le
      rw [List.length_take] at hle
      omega
  · intro hcond
    obtain ⟨hpercent, hfits⟩ := hcond
    have htext : ∀ c ∈ t, IsText c := fun c hc => (ht c hc).isText fun heq => hpercent (heq ▸ hc)
    rw [Literal, doubled_of_text htext]
    refine ⟨fun s h => ?_, fun s u hu hnot h => ?_⟩
    · obtain ⟨s', hgood, -⟩ := unformat_text fns hne htext h.ok h.marks fun c hc =>
        (ht c (h.left ▸ hc)).space
      obtain ⟨hrun, hstream⟩ := hgood (by rw [h.left, List.take_of_length_le hfits])
      refine ⟨s', hrun, ?_⟩
      rw [h.ok.stream_eq_left h.marks (h.left ▸ hne), h.left] at hstream
      exact List.self_eq_append_right.mp hstream
    · obtain ⟨s', -, hbad⟩ := unformat_text fns hne htext h.ok h.marks fun c hc =>
        (hu c (h.left ▸ hc)).space
      refine ⟨s', hbad fun hpre => hnot ?_⟩
      rw [h.left] at hpre
      exact hpre.trans (List.take_prefix _ _)

/-- `a=b`. -/
theorem literal_iff_equation : Literal (fun _ => eofParser) [97, 61, 98] :=
  (literal_iff (by decide) (by simp [IsPrintable])).mpr ⟨by decide, by decide⟩

/-- `%%` does not match a percent sign. -/
theorem not_literal : ¬ ∀ (fns : Nat → UserParser) (t : List UInt8), t ≠ [] →
    (∀ c ∈ t, IsPrintable c) → Literal fns t := by
  intro h
  have hliteral := h (fun _ => eofParser) [37] (by decide)
    (List.forall_mem_singleton.mpr (by decide))
  have hfile := consists_fileOf [37]
  obtain ⟨s', hrun, hend⟩ := hliteral.1 (fileOf [37]) hfile
  have hspace : ∀ c ∈ (fileOf [37]).input.left, isWhiteSpace c = false := by
    rw [hfile.left]
    exact List.forall_mem_singleton.mpr rfl
  exact unformat_percent (p := []) (u := []) (fun c hc => nomatch hc)
    (fun c hc => nomatch hc) hfile.ok hfile.marks hspace rfl hrun hend

end Libubox.Unformat
