import Libubox.Format.Pieces
import Libubox.Unformat.Integer

/-!
# Integers written and read back

A format of integer conversions and separators writes a text that `unformat` reads
with the same format.  `unformat_format_iff` says that it stores the values, and comes
to the end of the text, exactly if the separators are ASCII: a separator is compared
as a `char`, what comes in as a byte.
-/

namespace Libubox.Unformat

open Numeral
open Format (Field Letter Modifier Piece conversions output format Supplies digitsOf digitChar)

/-! ## Formats -/

/-- A character that may stand between two conversions. -/
def IsSeparator (c : UInt8) : Prop :=
  c ≠ 0 ∧ ¬ (48 ≤ c ∧ c ≤ 57) ∧ ¬ (65 ≤ c ∧ c ≤ 90) ∧ ¬ (97 ≤ c ∧ c ≤ 122) ∧
    ¬ (c = 32 ∨ (9 ≤ c ∧ c ≤ 13)) ∧ c ≠ 43 ∧ c ≠ 45 ∧ c ≠ 47 ∧ c ≠ 63 ∧ c ≠ 37

instance (c : UInt8) : Decidable (IsSeparator c) := inferInstanceAs (Decidable (_ ∧ _))

/-- The values fit their types, and the separators are separators. -/
def IsPiece : Piece → Prop
  | .conversion field value => field.Holds value
  | .separator text => text ≠ [] ∧ ∀ c ∈ text, IsSeparator c

def isConversion : Piece → Bool
  | .conversion _ _ => true
  | .separator _ => false

/-- Conversions and separators take turns. -/
def Alternates (pieces : List Piece) : Prop :=
  pieces.IsChain fun p q => isConversion p ≠ isConversion q

instance (pieces : List Piece) : Decidable (Alternates pieces) :=
  inferInstanceAs (Decidable (List.IsChain _ pieces))

/-- A separator of ASCII characters. -/
def IsAscii : Piece → Prop
  | .conversion _ _ => True
  | .separator text => ∀ c ∈ text, c < 128

/-- The variables hold the values. -/
def Stored (pieces : List Piece) (dests : List Nat) (vars : Nat → Datum) : Prop :=
  List.Forall₂ (fun c x => ∃ n < 2 ^ (8 * c.1.bytes), vars x = .integer c.1.bytes n ∧
    contentValue c.1.isSigned c.1.bytes n = c.2) (conversions pieces) dests

/-- Pointers to variables. -/
def pointers (dests : List Nat) : List Arg := dests.map fun x => .pointer (some x)

/-- What `format` writes into `size` bytes at `base` is read back with the same format
string: the values are stored, and nothing is left. -/
def RoundTrips (fns : Nat → UserParser) (base size : Nat) (pieces : List Piece)
    (va : Format.VaList) (dests : List Nat) : Prop :=
  ∃ o n text, Format.vaFormat base size (format pieces) va = some (o, n) ∧
    o.cells.take n.toNat = text.map some ∧
    ∀ s : State, s.input = unformatInitString text →
      ∃ s', unformat fns (format pieces) (pointers dests) s = .ok (true, s') ∧
        s'.input.left = [] ∧ Stored pieces dests s'.vars

/-! ## Numbers -/

variable {field : Field} {v : Int}

/-- The digits that are written. -/
def digitList (base n : Nat) : List Nat := if n = 0 then [0] else (Nat.digits base n).reverse

theorem continued_digitList (base n : Nat) : continued base 0 (digitList base n) = n := by
  unfold digitList
  split
  · next hzero => simp [hzero]
  · exact continued_digits base n

theorem hexDigit_digitChar {d : Nat} (hd : d < 16) : hexDigit (digitChar false d) = some d := by
  interval_cases d <;> rfl

theorem digitOf_digitChar {base d : Nat} (hbase : base ≤ 16) (hd : d < base) :
    digitOf base (digitChar false d) = some d := by
  rw [digitOf, hexDigit_digitChar (by omega), Option.filter_some, if_pos (decide_eq_true hd)]

/-- A run of digits ends where the text goes on otherwise. -/
theorem digitRun_append {base : Nat} (hbase : base ≤ 16) {ds : List Nat} {rest : List UInt8}
    (hds : ∀ d ∈ ds, d < base) (hrest : ∀ c ∈ rest.head?, digitOf base c = none) :
    digitRun base (ds.map (digitChar false) ++ rest) = ds := by
  induction ds with
  | nil =>
      cases rest with
      | nil => rfl
      | cons c rest =>
          show digitRun base (c :: rest) = []
          rw [digitRun, hrest c rfl]
  | cons d ds ih =>
      rw [List.map_cons, List.cons_append, digitRun,
        digitOf_digitChar hbase (hds d List.mem_cons_self),
        ih fun e he => hds e (List.mem_cons_of_mem d he)]

theorem digitsOf_eq (base n : Nat) :
    digitsOf ⟨base, 64, false, false⟩ n = (digitList base n).map (digitChar false) := by
  unfold digitsOf digitList
  split
  · rfl
  · rw [List.map_reverse]

theorem digitList_ne_nil (base n : Nat) : digitList base n ≠ [] := by
  unfold digitList
  split
  · exact List.cons_ne_nil _ _
  · next hne =>
      intro hnil
      exact hne (Nat.digits_eq_nil_iff_eq_zero.mp (List.reverse_eq_nil_iff.mp hnil))

theorem digitList_lt {base n : Nat} (hbase : 2 ≤ base) : ∀ d ∈ digitList base n, d < base := by
  intro d hd
  unfold digitList at hd
  split at hd
  · rw [List.mem_singleton.mp hd]
    omega
  · exact Nat.digits_lt_base hbase (List.mem_reverse.mp hd)

theorem base_range (field : Field) : 2 ≤ field.base ∧ field.base ≤ 16 := by
  unfold Field.base
  split
  · exact ⟨by norm_num, by norm_num⟩
  · exact ⟨by norm_num, by norm_num⟩

theorem digitChar_sign {d : Nat} (hd : d < 16) : digitChar false d ≠ 45 ∧ digitChar false d ≠ 43 := by
  interval_cases d <;> decide

/-- Nothing that could go on with a number. -/
def Ends (rest : List UInt8) : Prop := ∀ c ∈ rest.head?, hexDigit c = none

theorem Ends.digitOf {rest : List UInt8} (h : Ends rest) (base : Nat) :
    ∀ c ∈ rest.head?, digitOf base c = none := by
  intro c hc
  rw [Unformat.digitOf, h c hc]
  rfl

/-- The sign of what is written. -/
theorem signPart_output (hholds : field.Holds v) (rest : List UInt8) :
    signPart field.isSigned (field.output v ++ rest)
      = (decide (v < 0), (digitList field.base v.natAbs).map (digitChar false) ++ rest) := by
  obtain ⟨hlow, hbase⟩ := base_range field
  unfold Field.output
  rw [digitsOf_eq]
  by_cases hneg : v < 0
  · have hsigned : field.isSigned = true := by
      unfold Field.Holds at hholds
      cases hs : field.isSigned with
      | true => rfl
      | false =>
          rw [hs] at hholds
          simp only [Bool.false_eq_true, if_false] at hholds
          omega
    rw [if_pos hneg, List.append_assoc]
    show signPart field.isSigned (45 :: _) = _
    rw [signPart, if_pos ⟨rfl, hsigned⟩, decide_eq_true hneg]
    rfl
  · rw [if_neg hneg, List.nil_append, decide_eq_false hneg]
    have hdigits := digitList_lt (n := v.natAbs) hlow
    cases hds : digitList field.base v.natAbs with
    | nil => exact absurd hds (digitList_ne_nil _ _)
    | cons d ds =>
        rw [hds] at hdigits
        have hd : d < 16 := (hdigits d List.mem_cons_self).trans_le hbase
        obtain ⟨hminus, hplus⟩ := digitChar_sign hd
        rw [List.map_cons, List.cons_append, signPart, if_neg fun h => hminus h.1, if_neg hplus]

/-- **What is written is the longest numeric prefix of it**, whatever follows that
does not go on with a number. -/
theorem numericPrefix_output (hholds : field.Holds v) {rest : List UInt8} (hrest : Ends rest) :
    numericPrefix field.base field.isSigned (field.output v ++ rest)
        = ⟨decide (v < 0), digitList field.base v.natAbs⟩ ∧
      behindPrefix field.base field.isSigned (field.output v ++ rest) = rest := by
  obtain ⟨hlow, hbase⟩ := base_range field
  have hsign := signPart_output hholds rest
  have hrun : digitRun field.base (signPart field.isSigned (field.output v ++ rest)).2
      = digitList field.base v.natAbs := by
    rw [hsign]
    exact digitRun_append hbase (digitList_lt hlow) (hrest.digitOf _)
  have hpre : numericPrefix field.base field.isSigned (field.output v ++ rest)
      = ⟨decide (v < 0), digitList field.base v.natAbs⟩ := by
    rw [numericPrefix, hrun, hsign]
  refine ⟨hpre, ?_⟩
  rw [behindPrefix, hpre, hsign]
  exact List.drop_left' (List.length_map _)

theorem value_output (field : Field) (v : Int) :
    NumericPrefix.value ⟨decide (v < 0), digitList field.base v.natAbs⟩ field.base = v := by
  unfold NumericPrefix.value
  simp only [continued_digitList, decide_eq_true_eq]
  split
  · omega
  · omega

/-! ## Reading -/

/-- A state in which a text is left, with pointers to variables. -/
structure Ready (s : State) (text : List UInt8) (dests : List Nat) : Prop where
  ok : Ok s.input
  left : s.input.left = text
  va : s.va = pointers dests

variable {s : State} {text rest : List UInt8} {dests : List Nat}

theorem sizeLetters_field (field : Field) (f : List UInt8) :
    ∃ dataBytes, sizeLetters (field.modifier.text ++ field.letter.char :: f)
        = (dataBytes, field.letter.char, f) ∧ width dataBytes = some field.bytes := by
  obtain ⟨modifier, letter⟩ := field
  cases modifier
  · exact ⟨2 ^ 64 - 1, by cases letter <;> rfl, rfl⟩
  all_goals exact ⟨8, by cases letter <;> rfl, rfl⟩

theorem conversion_letter (field : Field) :
    conversion field.letter.char = some (field.base, field.isSigned) ∧
      ¬ (field.letter.char = 68 ∨ field.letter.char = 88) := by
  obtain ⟨modifier, letter⟩ := field
  cases modifier <;> cases letter <;> exact ⟨rfl, by decide⟩

/-- **A conversion reads back what it has written.** -/
theorem doPercent_output (fns : Nat → UserParser) (hholds : field.Holds v) (hrest : Ends rest)
    {x : Nat} (h : Ready s (field.output v ++ rest) (x :: dests)) (f : List UInt8) :
    ∃ s', doPercent fns (field.modifier.text ++ field.letter.char :: f) s = .ok (some f, s') ∧
      Ready s' rest dests ∧
      ∃ n < 2 ^ (8 * field.bytes), s'.vars = Function.update s.vars x (.integer field.bytes n) ∧
        contentValue field.isSigned field.bytes n = v := by
  obtain ⟨dataBytes, hsize, hwidth⟩ := sizeLetters_field field f
  obtain ⟨hconversion, hletter⟩ := conversion_letter field
  obtain ⟨hlow, hbase⟩ := base_range field
  obtain ⟨-, hbytes⟩ := width_bytes hwidth
  obtain ⟨hpre, hbehind⟩ := numericPrefix_output hholds hrest
  have hvalue := value_output field v
  obtain ⟨ok, s', hrun, hiff, hstore⟩ := unformatInteger_spec field.isSigned hlow
    hbase hwidth h.ok h.va
  rw [h.left, hpre] at hiff hstore
  rw [hbehind] at hstore
  have hfits : FitsBytes field.isSigned field.bytes
      (NumericPrefix.value ⟨decide (v < 0), digitList field.base v.natAbs⟩ field.base) := by
    rw [hvalue]
    exact hholds
  have hok : ok = true :=
    hiff.mpr ⟨digitList_ne_nil _ _, not_noticed_of_fits (by omega) hbytes hfits⟩
  obtain ⟨hva, hinput, hleft, hvars⟩ := hstore hok
  refine ⟨s', ?_, ⟨hinput, hleft, hva⟩, _, storedBytes_lt _ _, hvars, ?_⟩
  · unfold doPercent
    rw [hsize]
    dsimp only
    rw [directive_integer fns dataBytes f hconversion, if_neg hletter]
    show (unformatInteger field.base field.isSigned dataBytes s >>= fun p => _) = _
    rw [hrun, hok]
    rfl
  · rw [contentValue_stored hbytes hfits, hvalue]

/-- Nothing is skipped. -/
theorem skip_none (h : Ready s text dests) (htext : ∀ c ∈ text.head?, isWhiteSpace c = false) :
    ∃ s', unformatSkipWhiteSpace s = .ok (0, s') ∧ Ready s' text dests ∧ s'.vars = s.vars ∧
      (text = [] → s'.input.index = END_OF_INPUT) := by
  cases text with
  | nil =>
      obtain ⟨c, j, hget, hgot⟩ := h.ok.got
      obtain ⟨hleft, -⟩ := hgot.left h.ok
      rw [h.left] at hleft
      cases c with
      | some c => cases hleft
      | none =>
          have hend : j.index = END_OF_INPUT := by
            cases hgot with
            | atEnd hend => exact hend
            | exhausted hfull hbytes => simp [Input.filled, hbytes]
          refine ⟨{ s with input := j }, ?_, ⟨hgot.ok h.ok, hleft.symm, h.va⟩, rfl, fun _ => hend⟩
          unfold unformatSkipWhiteSpace
          show (scan _ 0 s >>= fun p => _) = _
          unfold scan
          rw [Input.fuel, scanFrom, hget]
          rfl
  | cons c rest =>
      have hspace : isWhiteSpace c = false := htext c rfl
      have hstays : scanText (fun n c => if isWhiteSpace c then .more (n + 1) else .putBack n) 0
          s.input.left = some (.done 0, c :: rest) := by
        rw [h.left, scanText, hspace]
        rfl
      obtain ⟨input, hscan, hok, hleft⟩ := scan_text _ h.ok hstays
      refine ⟨{ s with input }, ?_, ⟨hok, hleft, h.va⟩, rfl,
        fun hnil => absurd hnil (List.cons_ne_nil _ _)⟩
      unfold unformatSkipWhiteSpace
      show (scan _ 0 s >>= fun p => _) = _
      rw [hscan]
      rfl

theorem getInput_cons {c : UInt8} (h : Ready s (c :: rest) dests) :
    ∃ s', getInput s = .ok (c.toNat, s') ∧ Ready s' rest dests ∧ s'.vars = s.vars := by
  obtain ⟨c', j, hget, hgot⟩ := h.ok.got
  obtain ⟨hleft, hnil⟩ := hgot.left h.ok
  rw [h.left] at hleft
  cases c' with
  | none =>
      have hempty := hnil rfl
      rw [h.left] at hempty
      cases hempty
  | some c' =>
      obtain ⟨rfl, hrest⟩ := List.cons.inj hleft
      refine ⟨{ s with input := j }, ?_, ⟨hgot.ok h.ok, hrest.symm, h.va⟩, rfl⟩
      unfold getInput
      rw [hget]
      rfl

/-- A character of the format is matched by itself exactly if it is ASCII. -/
theorem charWord_eq (c : UInt8) : charWord c = c.toNat ↔ c < 128 := by
  have hlt := c.toNat_lt
  unfold charWord
  by_cases h : c < 128
  · rw [if_pos h]
    exact iff_of_true rfl h
  · rw [if_neg h]
    exact iff_of_false (by omega) h

/-- Where a separator ends. -/
def Stops (f : List UInt8) : Prop := ∀ c ∈ f.head?, c = 37

/-- **A separator is matched** exactly if it is ASCII. -/
theorem matchInput_separator {t f : List UInt8} (hf : Stops f) : ∀ {s : State},
    (∀ c ∈ t, IsSeparator c) → Ready s (t ++ rest) dests →
    ∃ g s', matchInputWithFormat (t ++ f) s = .ok (g, s') ∧
      ((∀ c ∈ t, c < 128) → g = some f ∧ Ready s' rest dests ∧ s'.vars = s.vars) ∧
      (¬ (∀ c ∈ t, c < 128) → g = none) := by
  induction t with
  | nil =>
      intro s _ h
      refine ⟨some f, s, ?_, fun _ => ⟨rfl, h, rfl⟩, fun hnot => absurd (by simp) hnot⟩
      cases f with
      | nil => rfl
      | cons c f =>
          have hc : c = 37 := hf c rfl
          rw [List.nil_append, matchInputWithFormat, if_pos (.inr (.inl hc))]
          rfl
  | cons c t ih =>
      intro s hsep h
      have hc : IsSeparator c := hsep c List.mem_cons_self
      obtain ⟨s₁, hget, h₁, hvars₁⟩ := getInput_cons h
      have hplain : ¬ (c = 0 ∨ c = 37 ∨ c = 32) := by
        obtain ⟨hzero, -, -, -, hspace, -, -, -, -, hpercent⟩ := hc
        intro hor
        rcases hor with hor | hor | hor
        · exact hzero hor
        · exact hpercent hor
        · exact hspace (.inl hor)
      have hturn : matchInputWithFormat (c :: t ++ f) s
          = if c < 128 then matchInputWithFormat (t ++ f) s₁ else .ok (none, s₁) := by
        rw [List.cons_append, matchInputWithFormat, if_neg hplain]
        show (getInput s >>= fun p => (if charWord c = p.1 then matchInputWithFormat (t ++ f)
          else pure none) p.2) = _
        rw [hget]
        show (if charWord c = c.toNat then matchInputWithFormat (t ++ f) else pure none) s₁ = _
        by_cases hascii : c < 128
        · rw [if_pos hascii, if_pos ((charWord_eq c).mpr hascii)]
        · rw [if_neg hascii, if_neg fun heq => hascii ((charWord_eq c).mp heq)]
          rfl
      rw [hturn]
      by_cases hascii : c < 128
      · rw [if_pos hascii]
        obtain ⟨g, s', hmatch, hgood, hbad⟩ :=
          ih (fun c hc => hsep c (List.mem_cons_of_mem _ hc)) h₁
        refine ⟨g, s', hmatch, ?_, ?_⟩
        · intro hall
          obtain ⟨hg, hready, hvars⟩ := hgood fun c hc => hall c (List.mem_cons_of_mem _ hc)
          exact ⟨hg, hready, hvars.trans hvars₁⟩
        · intro hnot
          refine hbad fun hall => hnot fun c' hc' => ?_
          cases List.mem_cons.mp hc' with
          | inl heq => exact heq ▸ hascii
          | inr hmem => exact hall c' hmem
      · rw [if_neg hascii]
        refine ⟨none, s₁, rfl, ?_, fun _ => rfl⟩
        intro hall
        exact absurd (hall c List.mem_cons_self) hascii

/-! ## The loop over the format -/

theorem isWhiteSpace_digitChar {d : Nat} (hd : d < 16) :
    isWhiteSpace (digitChar false d) = false := by
  interval_cases d <;> rfl

theorem isWhiteSpace_output (field : Field) (v : Int) (rest : List UInt8) :
    ∀ c ∈ (field.output v ++ rest).head?, isWhiteSpace c = false := by
  obtain ⟨hlow, hbase⟩ := base_range field
  intro c hc
  unfold Field.output at hc
  rw [digitsOf_eq] at hc
  by_cases hneg : v < 0
  · rw [if_pos hneg] at hc
    cases hc
    rfl
  · rw [if_neg hneg, List.nil_append] at hc
    have hdigits := digitList_lt (n := v.natAbs) hlow
    cases hds : digitList field.base v.natAbs with
    | nil => exact absurd hds (digitList_ne_nil _ _)
    | cons d ds =>
        rw [hds] at hc hdigits
        cases hc
        exact isWhiteSpace_digitChar ((hdigits d List.mem_cons_self).trans_le hbase)

theorem IsSeparator.not_space {c : UInt8} (h : IsSeparator c) : isWhiteSpace c = false := by
  obtain ⟨-, -, -, -, hspace, -⟩ := h
  unfold isWhiteSpace
  by_contra hwhite
  simp only [Bool.not_eq_false, Bool.or_eq_true, beq_iff_eq] at hwhite
  rcases hwhite with ((rfl | rfl) | rfl) | rfl
  · exact hspace (by decide)
  · exact hspace (by decide)
  · exact hspace (by decide)
  · exact hspace (by decide)

theorem IsSeparator.hexDigit {c : UInt8} (h : IsSeparator c) : hexDigit c = none := by
  obtain ⟨-, hdigit, hupper, hlower, -⟩ := h
  unfold Unformat.hexDigit
  rw [if_neg hdigit, if_neg, if_neg]
  · have hle : (70 : UInt8) ≤ 90 := by decide
    exact fun h => hupper ⟨h.1, UInt8.le_trans h.2 hle⟩
  · have hle : (102 : UInt8) ≤ 122 := by decide
    exact fun h => hlower ⟨h.1, UInt8.le_trans h.2 hle⟩

/-- A turn with a conversion. -/
theorem formatTurn_conversion (fns : Nat → UserParser) (hholds : field.Holds v)
    (hrest : Ends rest) {x : Nat} (h : Ready s (field.output v ++ rest) (x :: dests))
    (lastPercent lastFormat : Bool) (f : List UInt8) :
    ∃ s', formatTurn fns 37 true true true lastPercent lastFormat
        (field.modifier.text ++ field.letter.char :: f) s = .ok (.more f true false, s') ∧
      Ready s' rest dests ∧
      ∃ n < 2 ^ (8 * field.bytes), s'.vars = Function.update s.vars x (.integer field.bytes n) ∧
        contentValue field.isSigned field.bytes n = v := by
  obtain ⟨s₁, hskip, h₁, hvars₁, -⟩ := skip_none h (isWhiteSpace_output field v rest)
  obtain ⟨s₂, hpercent, h₂, hstored⟩ := doPercent_output fns hholds hrest h₁ f
  rw [hvars₁] at hstored
  refine ⟨s₂, ?_, h₂, hstored⟩
  unfold formatTurn
  show (unformatSkipWhiteSpace s >>= fun p => _) = _
  rw [hskip]
  show (doPercent fns _ s₁ >>= fun p => _) = _
  rw [hpercent]
  rfl

/-- A turn with a separator. -/
theorem formatTurn_separator (fns : Nat → UserParser) {c : UInt8} {t f : List UInt8}
    (hsep : ∀ c' ∈ c :: t, IsSeparator c') (hf : Stops f) (h : Ready s (c :: t ++ rest) dests)
    (lastPercent lastFormat : Bool) :
    ∃ turn s', formatTurn fns c false true true lastPercent lastFormat (c :: t ++ f) s
        = .ok (turn, s') ∧
      ((∀ c' ∈ c :: t, c' < 128) →
        turn = .more f false true ∧ Ready s' rest dests ∧ s'.vars = s.vars) ∧
      (¬ (∀ c' ∈ c :: t, c' < 128) → turn = .fail) := by
  have hc : IsSeparator c := hsep c List.mem_cons_self
  obtain ⟨s₁, hskip, h₁, hvars₁, -⟩ := skip_none h fun c' hc' => by
    cases hc'
    exact hc.not_space
  obtain ⟨g, s₂, hmatch, hgood, hbad⟩ := matchInput_separator hf hsep h₁
  have hzero : ¬ c = 0 := hc.1
  have hturn : formatTurn fns c false true true lastPercent lastFormat (c :: t ++ f) s
      = .ok (g.elim .fail fun g => .more g false (decide (g.length < (c :: t ++ f).length)),
          s₂) := by
    unfold formatTurn
    show (unformatSkipWhiteSpace s >>= fun p => _) = _
    rw [hskip]
    simp only [hzero, if_false, Bool.true_eq_false, and_false, Bool.false_eq_true]
    show (matchInputWithFormat (c :: t ++ f) s₁ >>= fun p => _) = _
    rw [hmatch]
    cases g <;> rfl
  refine ⟨_, s₂, hturn, ?_, ?_⟩
  · intro hall
    obtain ⟨rfl, hready, hvars⟩ := hgood hall
    have hshorter : f.length < (c :: t ++ f).length := by
      rw [List.length_append, List.length_cons]
      omega
    refine ⟨?_, hready, hvars.trans hvars₁⟩
    rw [Option.elim_some, decide_eq_true hshorter]
  · intro hnot
    rw [hbad hnot, Option.elim_none]

/-- The end of the format. -/
theorem formatTurn_end (fns : Nat → UserParser) (h : Ready s [] dests)
    (lastPercent lastFormat : Bool) :
    ∃ s', formatTurn fns 0 false true true lastPercent lastFormat [] s = .ok (.matched, s') ∧
      Ready s' [] dests ∧ s'.vars = s.vars := by
  obtain ⟨s₁, hskip, h₁, hvars₁, hend⟩ := skip_none h (by simp)
  refine ⟨s₁, ?_, h₁, hvars₁⟩
  unfold formatTurn
  show (unformatSkipWhiteSpace s >>= fun p => _) = _
  rw [hskip]
  have hmore : moreInput s₁ = .ok (false, s₁) := by
    unfold moreInput
    rw [hend rfl]
    rfl
  show (moreInput s₁ >>= fun p => (pure (if true && !lastPercent && !lastFormat && 0 == 0 && p.1
    then .fail else .matched) : Parser Turn) p.2) = _
  rw [hmore]
  show Except.ok (if true && !lastPercent && !lastFormat && 0 == 0 && false then Turn.fail
    else .matched, s₁) = _
  rw [Bool.and_false]
  rfl

theorem Alternates.ends {pieces : List Piece} (hpieces : ∀ p ∈ pieces, IsPiece p)
    (halt : Alternates (.conversion field v :: pieces)) : Ends (output pieces) := by
  cases pieces with
  | nil => exact fun c hc => nomatch hc
  | cons p pieces =>
      have hne := (List.isChain_cons_cons.mp halt).1
      cases p with
      | conversion field' v' => exact absurd rfl hne
      | separator t =>
          obtain ⟨htext, hsep⟩ := hpieces _ List.mem_cons_self
          cases t with
          | nil => exact absurd rfl htext
          | cons c t =>
              intro c' hc'
              cases hc'
              exact (hsep c List.mem_cons_self).hexDigit

theorem Alternates.stops {t : List UInt8} {pieces : List Piece}
    (halt : Alternates (.separator t :: pieces)) : Stops (format pieces) := by
  cases pieces with
  | nil => exact fun c hc => nomatch hc
  | cons p pieces =>
      have hne := (List.isChain_cons_cons.mp halt).1
      cases p with
      | separator t' => exact absurd rfl hne
      | conversion field v =>
          intro c hc
          cases hc
          rfl

/-- How the loop goes on behind a turn. -/
def next (fns : Nat → UserParser) (fmt : List UInt8) (fuel : Nat) (s : State) :
    Turn → Except Fault (Bool × State)
  | .fail => .ok (false, s)
  | .matched => .ok (true, s)
  | .more f lastPercent lastFormat => formatLoop fns fmt fuel f true lastPercent lastFormat s

theorem formatLoop_plain {fns : Nat → UserParser} {fmt f : List UInt8} {fuel : Nat}
    {lastPercent lastFormat : Bool} {turn : Turn} {s' : State}
    (hspace : isWhiteSpace (f.headD 0) = false) (hpercent : f.headD 0 ≠ 37)
    (hturn : formatTurn fns (f.headD 0) false true true lastPercent lastFormat f s
      = .ok (turn, s')) :
    formatLoop fns fmt (fuel + 1) f true lastPercent lastFormat s = next fns fmt fuel s' turn := by
  rw [formatLoop]
  simp only [hspace, hpercent, Bool.false_eq_true, if_false, Bool.or_true]
  show (formatTurn fns (f.headD 0) false true true lastPercent lastFormat f s >>= fun p => _) = _
  rw [hturn]
  cases turn <;> rfl

theorem formatLoop_percent {fns : Nat → UserParser} {fmt f : List UInt8} {fuel : Nat}
    {lastPercent lastFormat : Bool} {turn : Turn} {s' : State}
    (hletter : f.headD 0 ∉ [95, 37, 0])
    (hturn : formatTurn fns 37 true true true lastPercent lastFormat f s = .ok (turn, s')) :
    formatLoop fns fmt (fuel + 1) (37 :: f) true lastPercent lastFormat s
      = next fns fmt fuel s' turn := by
  simp only [List.mem_cons, List.not_mem_nil, or_false, not_or] at hletter
  obtain ⟨htoggle, hpercent, hend⟩ := hletter
  have hspace : isWhiteSpace 37 = false := rfl
  rw [formatLoop]
  simp only [List.headD_cons, hspace, Bool.false_eq_true, if_false, if_true, List.drop_one,
    List.tail_cons, htoggle, hpercent, hend, Bool.or_true]
  show (formatTurn fns 37 true true true lastPercent lastFormat f s >>= fun p => _) = _
  rw [hturn]
  cases turn <;> rfl

theorem headD_directive (field : Field) (f : List UInt8) :
    (field.modifier.text ++ field.letter.char :: f).headD 0 ∉ [95, 37, 0] := by
  obtain ⟨modifier, letter⟩ := field
  have hhead : (modifier.text ++ letter.char :: f).headD 0
      = (modifier.text ++ [letter.char]).headD 0 := by
    cases modifier <;> rfl
  rw [hhead]
  cases modifier <;> cases letter <;> decide

/-- **The loop over the format** reads back what was written, as far as the separators
are ASCII.  The induction is on the pieces. -/
theorem formatLoop_pieces (fns : Nat → UserParser) (fmt : List UInt8) {pieces : List Piece} :
    ∀ {fuel : Nat} {s : State} {dests : List Nat} (lastPercent lastFormat : Bool),
    (∀ p ∈ pieces, IsPiece p) → Alternates pieces → (format pieces).length < fuel →
    dests.length = (conversions pieces).length → dests.Nodup →
    Ready s (output pieces) dests →
    ∃ ok s', formatLoop fns fmt fuel (format pieces) true lastPercent lastFormat s = .ok (ok, s') ∧
      (ok = true ↔ ∀ p ∈ pieces, IsAscii p) ∧
      (ok = true → Ready s' [] [] ∧ Stored pieces dests s'.vars ∧
        ∀ x ∉ dests, s'.vars x = s.vars x) := by
  induction pieces with
  | nil =>
      intro fuel s dests lastPercent lastFormat _ _ hfuel hlen _ h
      obtain ⟨fuel, rfl⟩ : ∃ n, fuel = n + 1 := ⟨fuel - 1, by omega⟩
      obtain rfl : dests = [] := List.length_eq_zero_iff.mp hlen
      obtain ⟨s', hturn, hready, hvars⟩ := formatTurn_end fns h lastPercent lastFormat
      refine ⟨true, s', ?_, by simp, fun _ => ⟨hready, .nil, fun x _ => by rw [hvars]⟩⟩
      exact formatLoop_plain (f := []) rfl (by decide) hturn
  | cons p pieces ih =>
      intro fuel s dests lastPercent lastFormat hpieces halt hfuel hlen hnodup h
      obtain ⟨fuel, rfl⟩ : ∃ n, fuel = n + 1 := ⟨fuel - 1, by omega⟩
      have hrest : ∀ q ∈ pieces, IsPiece q := fun q hq => hpieces q (List.mem_cons_of_mem _ hq)
      have hp : IsPiece p := hpieces p List.mem_cons_self
      have halt' : Alternates pieces := List.IsChain.tail halt
      have hformat : format (p :: pieces) = p.format ++ format pieces := List.flatMap_cons
      have houtput : output (p :: pieces) = p.output ++ output pieces := List.flatMap_cons
      rw [houtput] at h
      rw [hformat] at hfuel ⊢
      rw [List.length_append] at hfuel
      cases p with
      | conversion field v =>
          cases dests with
          | nil => cases hlen
          | cons x dests =>
              obtain ⟨hx, hnodup⟩ := List.nodup_cons.mp hnodup
              obtain ⟨s₁, hturn, h₁, n, hn, hvars₁, hvalue⟩ := formatTurn_conversion fns hp
                (halt.ends hrest) h lastPercent lastFormat (format pieces)
              have hloop : formatLoop fns fmt (fuel + 1)
                  ((Piece.conversion field v).format ++ format pieces) true lastPercent lastFormat s
                  = formatLoop fns fmt fuel (format pieces) true true false s₁ := by
                have hdirective : (Piece.conversion field v).format ++ format pieces
                    = 37 :: (field.modifier.text ++ field.letter.char :: format pieces) := by
                  simp [Piece.format]
                rw [hdirective]
                exact formatLoop_percent (headD_directive field _) hturn
              have hshorter : (format pieces).length < fuel := by
                have hpos : 0 < (Piece.conversion field v).format.length := Nat.succ_pos _
                omega
              obtain ⟨ok, s', hrun, hiff, hgood⟩ := ih true false hrest halt' hshorter
                (Nat.succ.inj hlen) hnodup h₁
              refine ⟨ok, s', hloop.trans hrun, ?_, ?_⟩
              · rw [hiff, List.forall_mem_cons]
                exact ⟨fun hall => ⟨trivial, hall⟩, fun hall => hall.2⟩
              · intro hok
                obtain ⟨hready, hstored, hframe⟩ := hgood hok
                refine ⟨hready, .cons ⟨n, hn, ?_, hvalue⟩ hstored, ?_⟩
                · rw [hframe x hx, hvars₁, Function.update_self]
                · intro y hy
                  rw [List.mem_cons, not_or] at hy
                  rw [hframe y hy.2, hvars₁, Function.update_of_ne hy.1]
      | separator t =>
          obtain ⟨htext, hsep⟩ := hp
          cases t with
          | nil => exact absurd rfl htext
          | cons c t =>
              obtain ⟨turn, s₁, hturn, hgood₁, hbad₁⟩ := formatTurn_separator fns hsep halt.stops h
                lastPercent lastFormat
              have hc : IsSeparator c := hsep c List.mem_cons_self
              have hloop : formatLoop fns fmt (fuel + 1)
                  ((Piece.separator (c :: t)).format ++ format pieces) true lastPercent lastFormat s
                  = next fns fmt fuel s₁ turn :=
                formatLoop_plain (f := c :: t ++ format pieces) hc.not_space
                  hc.2.2.2.2.2.2.2.2.2 hturn
              have hshorter : (format pieces).length < fuel := by
                have hpos : 0 < (Piece.separator (c :: t)).format.length := Nat.succ_pos _
                omega
              rw [hloop]
              by_cases hascii : ∀ c' ∈ c :: t, c' < 128
              · obtain ⟨rfl, h₁, hvars₁⟩ := hgood₁ hascii
                obtain ⟨ok, s', hrun, hiff, hgood⟩ := ih false true hrest halt' hshorter hlen hnodup h₁
                refine ⟨ok, s', hrun, ?_, ?_⟩
                · rw [hiff, List.forall_mem_cons]
                  exact ⟨fun hall => ⟨hascii, hall⟩, fun hall => hall.2⟩
                · rw [← hvars₁]
                  exact hgood
              · rw [hbad₁ hascii]
                refine ⟨false, s₁, rfl, iff_of_false Bool.false_ne_true ?_, nofun⟩
                intro hall
                exact hascii (hall _ List.mem_cons_self)

/-! ## The call -/

theorem Input.source_filled {i : Input} (hnone : i.source = none) : i.filled.source = none := by
  rw [Input.filled, hnone]
  rfl

/-- An input without a source stays without one. -/
theorem Moves.source {i j : Input} (hmoves : Moves i j) : Ok i → i.source = none →
    j.source = none := by
  induction hmoves with
  | refl i => exact fun _ hnone => hnone
  | trans hij _ ihij ihjk =>
      intro h hnone
      exact ihjk (hij.ok h).1 (ihij h hnone)
  | check i =>
      intro h hnone
      cases h.check with
      | inl heq => rwa [heq]
      | inr hfull =>
          rw [hfull.2]
          exact Input.source_filled hnone
  | get hget =>
      intro h hnone
      cases h.getInput hget with
      | atEnd hend => exact hnone
      | buffered c hlt hunread => exact hnone
      | exhausted hfull hbytes => exact Input.source_filled hnone
      | refilled c bytes hfull hbytes => exact Input.source_filled hnone
  | put hne hpos hmarks =>
      intro h hnone
      rw [h.put_eq hne hpos]
      exact hnone
  | scope back _ ih =>
      intro h hnone
      exact ih h.push hnone

/-- Without a source only the buffer is left. -/
theorem left_of_source {i : Input} (hsource : i.source = none) : i.left = i.unread := by
  have hrest : i.rest = [] := by
    unfold Input.rest
    rw [hsource]
    rfl
  have hfetch : i.fetch = [] := by
    unfold Input.fetch
    split
    · rfl
    · split
      · exact hrest
      · rw [hrest, List.take_nil]
  rw [Input.left, hfetch, List.append_nil]

/-- **`unformat` on the text that was written.** -/
theorem unformat_output (fns : Nat → UserParser) {pieces : List Piece}
    (hpieces : ∀ p ∈ pieces, IsPiece p) (halt : Alternates pieces)
    (hfits : (output pieces).length ≤ BUFFER_SIZE)
    (hlen : dests.length = (conversions pieces).length) (hnodup : dests.Nodup)
    (hinput : s.input = unformatInitString (output pieces)) :
    ∃ ok s', unformat fns (format pieces) (pointers dests) s = .ok (ok, s') ∧
      (ok = true ↔ ∀ p ∈ pieces, IsAscii p) ∧
      (ok = true → s'.input.left = [] ∧ Stored pieces dests s'.vars) := by
  have hok : Ok s.input := by
    rw [hinput]
    exact (InUse.string _).ok
  have hleft : s.input.left = output pieces := by
    rw [hinput]
    exact left_unformatInitString hfits
  have hmarks : s.input.marks = [] := by
    rw [hinput]
    unfold unformatInitString buffAdd
    split <;> rfl
  have hsource : s.input.source = none := by
    rw [hinput]
    unfold unformatInitString buffAdd
    split <;> rfl
  -- the mark does not matter to what is left
  have hpush : s.input.push.left = output pieces := by
    rw [left_of_source (i := s.input.push) hsource, ← hleft, left_of_source hsource]
    rfl
  have hready : Ready { s with va := pointers dests, input := s.input.push } (output pieces) dests :=
    ⟨hok.push, hpush, rfl⟩
  obtain ⟨ok, s₁, hrun, hiff, hgood⟩ := formatLoop_pieces fns (format pieces) false false hpieces halt
    (Nat.lt_succ_self _) hlen hnodup hready
  have hmoves : Moves s.input.push s₁.input :=
    (good_formatLoop fns (format pieces) (format pieces) true false false (Nat.lt_succ_self _)).moves
      hok.push hrun
  have hsource₁ : s₁.input.source = none := hmoves.source hok.push hsource
  refine ⟨ok, { s₁ with input := s₁.input.pop (!ok), va := s.va }, ?_, hiff, ?_⟩
  · have hfull : (s.input.marks.length == MAX_MARKS) = false := by
      rw [hmarks]
      rfl
    have hcall : vaUnformat fns (format pieces) { s with va := pointers dests }
        = .ok (ok, { s₁ with input := s₁.input.pop (!ok) }) := by
      show (if s.input.marks.length == MAX_MARKS then _ else _ : Parser Bool) _ = _
      rw [hfull]
      show (formatLoop fns (format pieces) _ (format pieces) true false false
        { s with va := pointers dests, input := s.input.push } >>= fun p => _) = _
      rw [hrun]
      rfl
    unfold unformat
    rw [hcall]
    rfl
  · intro htrue
    obtain ⟨hready₁, hstored, -⟩ := hgood htrue
    refine ⟨?_, hstored⟩
    rw [htrue]
    show (s₁.input.pop false).left = []
    rw [left_of_source (i := s₁.input.pop false) hsource₁, ← hready₁.left, left_of_source hsource₁]
    rfl

section Calls

variable {fns : Nat → UserParser} {base size : Nat} {pieces : List Piece} {va : Format.VaList}

theorem IsPiece.plain {p : Piece} (h : IsPiece p) : p.Plain := by
  cases p with
  | conversion field v => exact h
  | separator t =>
      intro c hc
      exact (h.2 c hc).2.2.2.2.2.2.2.2.2

/-- What is read back has ASCII separators. -/
theorem RoundTrips.ascii (hpieces : ∀ p ∈ pieces, IsPiece p) (halt : Alternates pieces)
    (hsupplies : Supplies va (conversions pieces))
    (hfits : (output pieces).length ≤ BUFFER_SIZE) (hroom : (output pieces).length ≤ size)
    (hsize : size < 2 ^ 31) (hbase : base + size ≤ 2 ^ 64)
    (hlen : dests.length = (conversions pieces).length) (hnodup : dests.Nodup)
    (h : RoundTrips fns base size pieces va dests) : ∀ p ∈ pieces, IsAscii p := by
  obtain ⟨o, hformat, hcells⟩ := Format.vaFormat_pieces (fun p hp => (hpieces p hp).plain)
    hsupplies hroom hsize hbase
  obtain ⟨o', n, text, hrun, htext, hread⟩ := h
  rw [hformat] at hrun
  cases hrun
  rw [Int.toNat_natCast, hcells] at htext
  have heq : output pieces = text := List.map_injective_iff.mpr (Option.some_injective _) htext
  obtain ⟨s', hsuccess, -⟩ := hread (reading text []) rfl
  obtain ⟨ok, s'', hrun, hiff, -⟩ := unformat_output (s := reading text []) fns hpieces halt hfits
    hlen hnodup (by rw [heq]; rfl)
  rw [hrun] at hsuccess
  cases hsuccess
  exact hiff.mp rfl

/-- **Round trip.**  Integers and separators that `format` has written are read back
with the same format string exactly if the separators are ASCII. -/
theorem unformat_format_iff (hpieces : ∀ p ∈ pieces, IsPiece p) (halt : Alternates pieces)
    (hsupplies : Supplies va (conversions pieces))
    (hfits : (output pieces).length ≤ BUFFER_SIZE) (hroom : (output pieces).length ≤ size)
    (hsize : size < 2 ^ 31) (hbase : base + size ≤ 2 ^ 64)
    (hlen : dests.length = (conversions pieces).length) (hnodup : dests.Nodup) :
    RoundTrips fns base size pieces va dests ↔ ∀ p ∈ pieces, IsAscii p := by
  constructor
  · exact RoundTrips.ascii hpieces halt hsupplies hfits hroom hsize hbase hlen hnodup
  · intro hascii
    obtain ⟨o, hformat, hcells⟩ := Format.vaFormat_pieces (fun p hp => (hpieces p hp).plain)
      hsupplies hroom hsize hbase
    refine ⟨o, _, output pieces, hformat, by rw [Int.toNat_natCast, hcells], fun s hs => ?_⟩
    obtain ⟨ok, s', hrun, hiff, hgood⟩ := unformat_output fns hpieces halt hfits hlen hnodup hs
    have hok : ok = true := hiff.mpr hascii
    refine ⟨s', ?_, hgood hok⟩
    rw [hrun, hok]

end Calls

/-- `%ld`, a separator and `%x`. -/
def twoNumbers (separator : List UInt8) : List Piece :=
  [.conversion ⟨.l, .d⟩ (-5), .separator separator, .conversion ⟨.none, .x⟩ 255]

theorem isPiece_twoNumbers {separator : List UInt8} (hne : separator ≠ [])
    (h : ∀ c ∈ separator, IsSeparator c) : ∀ p ∈ twoNumbers separator, IsPiece p := by
  intro p hp
  simp only [twoNumbers, List.mem_cons, List.not_mem_nil, or_false] at hp
  rcases hp with rfl | rfl | rfl
  · show -2 ^ 63 ≤ (-5 : Int) ∧ (-5 : Int) < 2 ^ 63
    norm_num
  · exact ⟨hne, h⟩
  · show (0 : Int) ≤ 255 ∧ (255 : Int) < 2 ^ 32
    norm_num

/-- The arguments of `twoNumbers`. -/
def twoArgs : Format.VaList := fun n => ⟨if n = 0 then 2 ^ 64 - 5 else 255, none⟩

theorem supplies_twoNumbers (separator : List UInt8) :
    Supplies twoArgs (conversions (twoNumbers separator)) := by
  refine ⟨?_, ?_, trivial⟩
  · show ((2 ^ 64 - 5 : Nat) : Int) % 2 ^ 64 = -5 % 2 ^ 64
    norm_num
  · show ((255 : Nat) : Int) % 2 ^ 32 = 255 % 2 ^ 32
    norm_num

theorem output_twoNumbers (separator : List UInt8) :
    output (twoNumbers separator) = [45, 53] ++ separator ++ [102, 102] := by
  have hfive : Field.output ⟨.l, .d⟩ (-5) = [45, 53] := by decide
  have hff : Field.output ⟨.none, .x⟩ 255 = [102, 102] := by decide
  simp [output, twoNumbers, Piece.output, hfive, hff]

/-- `-5:ff` is read back. -/
theorem unformat_format_iff_colon :
    RoundTrips (fun _ => eofParser) 4096 1024 (twoNumbers [58]) twoArgs [0, 1] := by
  have hlen : (output (twoNumbers [58])).length = 5 := by
    rw [output_twoNumbers]
    rfl
  have hpieces : ∀ p ∈ twoNumbers [58], IsPiece p :=
    isPiece_twoNumbers (by decide) (List.forall_mem_singleton.mpr (by decide))
  have hfits : (output (twoNumbers [58])).length ≤ 1024 := by
    rw [hlen]
    decide
  refine (unformat_format_iff hpieces (by decide) (supplies_twoNumbers _)
    (hfits.trans (by decide)) hfits (by decide) (by decide) rfl (by decide)).mpr ?_
  intro p hp
  simp only [twoNumbers, List.mem_cons, List.not_mem_nil, or_false] at hp
  rcases hp with rfl | rfl | rfl
  · trivial
  · exact List.forall_mem_singleton.mpr (by decide)
  · trivial

/-- A separator of the byte 128 is written, but is not matched by itself. -/
theorem not_unformat_format : ¬ ∀ (fns : Nat → UserParser) (base size : Nat) (pieces : List Piece)
    (va : Format.VaList) (dests : List Nat), (∀ p ∈ pieces, IsPiece p) → Alternates pieces →
    Supplies va (conversions pieces) → (output pieces).length ≤ BUFFER_SIZE →
    (output pieces).length ≤ size → size < 2 ^ 31 → base + size ≤ 2 ^ 64 →
    dests.length = (conversions pieces).length → dests.Nodup →
    RoundTrips fns base size pieces va dests := by
  intro h
  have hpieces : ∀ p ∈ twoNumbers [128], IsPiece p :=
    isPiece_twoNumbers (by decide) (List.forall_mem_singleton.mpr (by decide))
  have hlen : (output (twoNumbers [128])).length = 5 := by
    rw [output_twoNumbers]
    rfl
  have hfits : (output (twoNumbers [128])).length ≤ 1024 := by
    rw [hlen]
    decide
  have hbuffer := hfits.trans (by decide : 1024 ≤ BUFFER_SIZE)
  have htrip := h (fun _ => eofParser) 4096 1024 (twoNumbers [128]) twoArgs [0, 1] hpieces
    (by decide) (supplies_twoNumbers _) hbuffer hfits (by decide) (by decide) rfl (by decide)
  have hascii := htrip.ascii hpieces (by decide) (supplies_twoNumbers _) hbuffer hfits
    (by decide) (by decide) rfl (by decide) (.separator [128])
    (List.mem_cons_of_mem _ List.mem_cons_self)
  exact absurd (hascii 128 List.mem_cons_self) (by decide)

end Libubox.Unformat
