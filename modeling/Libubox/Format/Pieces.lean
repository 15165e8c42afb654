import Libubox.Format.VaFormat

/-!
# Integers and what stands between them

Formats made of integer conversions without a width and of plain text.  `output` is
the text such a format stands for, and `vaFormat_pieces` says that it is written if
there is room for it.
-/

namespace Libubox.Format

open Bytes

/-! ## Formats -/

/-- The letters of the conversions. -/
inductive Letter where
  | d
  | u
  | x
  deriving DecidableEq

/-- How long the argument is. -/
inductive Modifier where
  | none
  | l
  | ll
  | L
  | w
  deriving DecidableEq

/-- An integer conversion. -/
structure Field where
  modifier : Modifier
  letter : Letter
  deriving DecidableEq

def Letter.char : Letter → UInt8
  | .d => 100
  | .u => 117
  | .x => 120

def Modifier.text : Modifier → Text
  | .none => []
  | .l => [108]
  | .ll => [108, 108]
  | .L => [76]
  | .w => [119]

def Field.base (field : Field) : Nat := if field.letter = .x then 16 else 10

def Field.isSigned (field : Field) : Bool := field.letter = .d

/-- The size of the type of the argument. -/
def Field.bytes (field : Field) : Nat := if field.modifier = .none then 4 else 8

/-- A value of that type. -/
def Field.Holds (field : Field) (v : Int) : Prop :=
  if field.isSigned then -2 ^ (8 * field.bytes - 1) ≤ v ∧ v < 2 ^ (8 * field.bytes - 1)
  else 0 ≤ v ∧ v < 2 ^ (8 * field.bytes)

/-- The argument that passes a value. -/
def Field.Passes (field : Field) (v : Int) (a : Arg) : Prop :=
  (a.word : Int) % 2 ^ (8 * field.bytes) = v % 2 ^ (8 * field.bytes)

/-- A conversion with the value of its argument, or plain text. -/
inductive Piece where
  | conversion (field : Field) (value : Int)
  | separator (text : Text)
  deriving DecidableEq

def Piece.format : Piece → Text
  | .conversion field _ => 37 :: (field.modifier.text ++ [field.letter.char])
  | .separator text => text

/-- What a conversion writes. -/
def Field.output (field : Field) (v : Int) : Text :=
  (if v < 0 then [45] else []) ++ digitsOf ⟨field.base, 64, false, false⟩ v.natAbs

def Piece.output : Piece → Text
  | .conversion field value => field.output value
  | .separator text => text

/-- The format string. -/
def format (pieces : List Piece) : Text := pieces.flatMap Piece.format

/-- The text it stands for. -/
def output (pieces : List Piece) : Text := pieces.flatMap Piece.output

/-- The conversions and their values. -/
def conversions : List Piece → List (Field × Int)
  | [] => []
  | .conversion field value :: pieces => (field, value) :: conversions pieces
  | .separator _ :: pieces => conversions pieces

/-- The arguments pass the values. -/
def Supplies : VaList → List (Field × Int) → Prop
  | _, [] => True
  | va, c :: cs => c.1.Passes c.2 (va 0) ∧ Supplies va.next cs

/-- The values fit their types, and the text is plain. -/
def Piece.Plain : Piece → Prop
  | .conversion field value => field.Holds value
  | .separator text => ∀ c ∈ text, c ≠ 37

/-! ## One conversion -/

variable {field : Field} {v : Int} {a : Arg}

/-- The letter for how long the argument is, in `how_long`. -/
def Modifier.howLong : Modifier → UInt8
  | .none => 0
  | .l => 108
  | .ll | .L => 76
  | .w => 119

theorem takeSpec_field (field : Field) (rest : Text) :
    takeSpec (field.modifier.text ++ field.letter.char :: rest)
      = (⟨43, 32, some 0, some 0, field.modifier.howLong⟩, field.letter.char :: rest) := by
  obtain ⟨modifier, letter⟩ := field
  cases modifier <;> cases letter <;> rfl

/-- The `int` in an argument that passes an `int` or an `unsigned int`. -/
theorem int_bmod {w : Nat} {v : Int} (h : (w : Int) % 4294967296 = v % 4294967296) :
    Int.bmod w (2 ^ 32) = Int.bmod v (2 ^ 32) := by
  have hcast : ((2 ^ 32 : Nat) : Int) = 4294967296 := rfl
  rw [← Int.emod_bmod (w : Int), hcast, h, ← hcast, Int.emod_bmod]

theorem toUword_int {w : Nat} {v : Int} (h : (w : Int) % 4294967296 = v % 4294967296)
    (hlow : -2147483648 ≤ v) (hhigh : v < 2147483648) :
    (toUword (Int.bmod w (2 ^ 32)) : Int) = v % 18446744073709551616 := by
  have hv : Int.bmod v (2 ^ 32) = v := by
    apply Int.bmod_eq_of_le_mul_two
    · norm_num
      omega
    · norm_num
      omega
  rw [int_bmod h, hv, toUword]
  norm_num
  omega

theorem toUword_unsigned {w : Nat} {v : Int} (h : (w : Int) % 4294967296 = v % 4294967296)
    (hlow : 0 ≤ v) (hhigh : v < 4294967296) :
    ((toUword (Int.bmod w (2 ^ 32)) % 4294967296 : Nat) : Int) = v := by
  have hv : Int.bmod v (2 ^ 32) % 4294967296 = v % 4294967296 := Int.bmod_emod
  rw [int_bmod h, toUword]
  generalize Int.bmod v (2 ^ 32) = n at hv
  norm_num
  omega

theorem toUword_lt (n : Int) : toUword n < 2 ^ 64 := by
  have hpos : (0 : Int) < 2 ^ 64 := by norm_num
  have hlt := Int.emod_lt_of_pos n hpos
  have hnonneg := Int.emod_nonneg n hpos.ne'
  unfold toUword
  omega

theorem integerArg_lt (fi : FormatInfo) (a : Arg) : (integerArg fi a).1 < 2 ^ 64 := by
  unfold integerArg
  split
  · exact Nat.mod_lt _ (Nat.two_pow_pos 64)
  · dsimp only
    exact toUword_lt a.int

/-- The `u64` that is made of an argument. -/
theorem integerArg_passes {fi : FormatInfo} (hlong : fi.howLong = field.modifier.howLong)
    (hpasses : field.Passes v a) (hholds : field.Holds v) :
    (integerArg fi a).2 = 8 * field.bytes ∧
      (if field.isSigned then ((integerArg fi a).1 : Int) = v % 2 ^ 64
        else (((integerArg fi a).1 % 2 ^ (8 * field.bytes) : Nat) : Int) = v) := by
  unfold Field.Passes Field.Holds at *
  unfold integerArg
  rw [hlong]
  generalize field.isSigned = isSigned at *
  by_cases hnone : field.modifier = .none
  · have hbytes : field.bytes = 4 := if_pos hnone
    have hint : ¬ (Modifier.none.howLong = 76 ∨ Modifier.none.howLong = 108 ∨
        Modifier.none.howLong = 119) := by decide
    rw [hbytes] at hpasses hholds ⊢
    rw [hnone, if_neg hint]
    refine ⟨rfl, ?_⟩
    have hword : (2 : Int) ^ (8 * 4) = 4294967296 := by norm_num
    have hhalf : (2 : Int) ^ (8 * 4 - 1) = 2147483648 := by norm_num
    rw [hword, hhalf] at hholds
    rw [hword] at hpasses
    cases isSigned with
    | true =>
        have hvalue : (toUword a.int : Int) = _ := toUword_int hpasses hholds.1 hholds.2
        have hlarge : (2 : Int) ^ 64 = 18446744073709551616 := by norm_num
        rw [if_pos rfl, hlarge]
        dsimp only
        rw [hvalue]
    | false =>
        have hvalue : ((toUword a.int % 4294967296 : Nat) : Int) = v :=
          toUword_unsigned hpasses hholds.1 hholds.2
        have hlarge : 2 ^ (8 * 4) = 4294967296 := by norm_num
        rw [if_neg Bool.false_ne_true, hlarge]
        dsimp only
        rw [hvalue]
  · have hbytes : field.bytes = 8 := if_neg hnone
    have hword : field.modifier.howLong = 76 ∨ field.modifier.howLong = 108 ∨
        field.modifier.howLong = 119 := by
      revert hnone
      cases field.modifier <;> decide
    rw [hbytes] at hpasses hholds ⊢
    rw [if_pos hword]
    refine ⟨rfl, ?_⟩
    cases isSigned with
    | true => exact hpasses
    | false =>
        have hsmall : 0 ≤ v ∧ v < 2 ^ 64 := hholds
        show ((a.word % 2 ^ 64 % 2 ^ 64 : Nat) : Int) = v
        rw [Nat.mod_mod, Int.natCast_mod]
        exact hpasses.trans (Int.emod_eq_of_lt hsmall.1 hsmall.2)

/-- The sign and the magnitude that `format_integer` sees. -/
theorem magnitude {n : Nat} (hholds : field.Holds v) (hn : n < 2 ^ 64)
    (hvalue : if field.isSigned then (n : Int) = v % 2 ^ 64
      else ((n % 2 ^ (8 * field.bytes) : Nat) : Int) = v) :
    let negative := field.isSigned && decide (2 ^ 63 ≤ n)
    let number := if negative then (2 ^ 64 - n) % 2 ^ 64 else n
    (if 8 * field.bytes < 64 then number % 2 ^ (8 * field.bytes) else number) = v.natAbs ∧
      negative = decide (v < 0) := by
  have hbytes : field.bytes = 4 ∨ field.bytes = 8 := by
    unfold Field.bytes
    split
    · exact .inl rfl
    · exact .inr rfl
  unfold Field.Holds at hholds
  generalize field.isSigned = isSigned at *
  generalize field.bytes = bytes at *
  dsimp only
  cases isSigned with
  | false =>
      simp only [Bool.false_eq_true, if_false, Bool.false_and] at hholds hvalue ⊢
      refine ⟨?_, (decide_eq_false (by omega)).symm⟩
      split
      · omega
      · next hwide =>
          have hmod : n % 2 ^ (8 * bytes) = n := by
            obtain rfl : bytes = 8 := by omega
            exact Nat.mod_eq_of_lt hn
          omega
  | true =>
      simp only [if_true, Bool.true_and, decide_eq_true_eq] at hholds hvalue ⊢
      rcases hbytes with rfl | rfl
      · norm_num at hholds hvalue ⊢
        split
        · omega
        · omega
      · norm_num at hholds hvalue ⊢
        split
        · omega
        · omega

/-- **A conversion writes the number that its argument passes.** -/
theorem formatInteger_field {fi : FormatInfo} (hlong : fi.howLong = field.modifier.howLong)
    (hpasses : field.Passes v a) (hholds : field.Holds v) (o : Out) :
    formatInteger o (integerArg fi a).1
        ⟨if field.letter = .x then 16 else 10, (integerArg fi a).2, field.letter = .d, false⟩
      = (if v < 0 then o.buffAdd1 45 else o).buffAdd
          (digitsOf ⟨field.base, 64, false, false⟩ v.natAbs) := by
  obtain ⟨hbits, hvalue⟩ := integerArg_passes hlong hpasses hholds
  have hsigned : decide (field.letter = .d) = field.isSigned := rfl
  obtain ⟨hmagnitude, hnegative⟩ := magnitude hholds (integerArg_lt fi a) hvalue
  unfold formatInteger
  rw [hbits, hsigned]
  dsimp only
  rw [hmagnitude, hnegative]
  simp only [decide_eq_true_eq]
  rfl

/-! ## The output -/

/-- The text that was written in front of the position. -/
def Out.Shows (o : Out) (text : Text) : Prop :=
  o.pos = text.length ∧ o.cells.take o.pos = text.map some

theorem Out.Shows.buffAdd {o : Out} {text : Text} (h : o.Shows text) (bs : Text)
    (hroom : text.length + bs.length ≤ o.cells.length) :
    (o.buffAdd bs).Shows (text ++ bs) ∧ (o.buffAdd bs).cells.length = o.cells.length := by
  obtain ⟨hpos, hcells⟩ := h
  have hle : bs.length ≤ o.room := by
    unfold Out.room
    omega
  have hlen : (bs.map some).length = bs.length := List.length_map _
  have hstore : o.pos + (bs.map some).length ≤ o.cells.length := by omega
  unfold Out.buffAdd
  rw [dif_pos hle]
  refine ⟨⟨?_, ?_⟩, overwrite_length hstore⟩
  · show o.pos + bs.length = _
    rw [hpos, List.length_append]
  · show (overwrite o.cells o.pos (bs.map some)).take (o.pos + bs.length) = _
    have hfront : (o.cells.take o.pos ++ bs.map some).length = o.pos + bs.length := by
      rw [List.length_append, List.length_take, hlen]
      omega
    rw [overwrite, List.take_left' hfront, hcells, List.map_append]

/-- A field without a width is not padded. -/
theorem justify_field {base : Nat} {o : Out} {i0 : Nat} (fi : FormatInfo) (hwidth : fi.width0 = 0)
    (hbase : base + i0 < 2 ^ 64) : ∃ o', justify base o fi i0 = some o' ∧ o'.pos = o.pos ∧
      o'.cells = o.cells := by
  have hpos := o.pos_le
  have hend : fieldEnd base i0 fi.width0 = i0 := by
    unfold fieldEnd
    rw [hwidth, Nat.add_zero, Nat.mod_eq_of_lt hbase]
    omega
  obtain ⟨o', hadvance, hpos', hcells⟩ := @advance_spec o ((0 : Nat) : Int) (by omega) (by omega)
  refine ⟨o', ?_, by omega, hcells⟩
  unfold justify
  simp only [hend, if_true, lt_irrefl, if_false, Int.sub_self, Int.toNat_zero, padding_zero,
    padLeft, padRight, Option.bind_some, false_and, hadvance]

variable {base : Nat} {va : VaList} {o : Out} {text : Text}

theorem convert_field (o : Out) (fi : FormatInfo) (a : Arg) (letter : Letter) :
    ¬ IsExternal letter.char ∧ convert o fi a letter.char
      = some (formatInteger o (integerArg fi a).1
          ⟨if letter = .x then 16 else 10, (integerArg fi a).2, letter = .d, false⟩) := by
  cases letter <;> exact ⟨by decide, rfl⟩

theorem digitsOf_ne_nil (options : IntegerOptions) (n : Nat) : digitsOf options n ≠ [] := by
  unfold digitsOf
  split
  · exact List.cons_ne_nil _ _
  · next hne =>
      intro hnil
      rw [List.reverse_eq_nil_iff, List.map_eq_nil_iff, Nat.digits_eq_nil_iff_eq_zero] at hnil
      exact hne hnil

theorem Field.output_ne_nil (field : Field) (v : Int) : field.output v ≠ [] := by
  unfold Field.output
  intro hnil
  exact digitsOf_ne_nil _ _ (List.append_eq_nil_iff.mp hnil).2

/-- **A conversion writes its value.** -/
theorem doPercent_field (hpasses : field.Passes v (va 0)) (hholds : field.Holds v)
    (hshows : o.Shows text) (hroom : text.length + (field.output v).length ≤ o.cells.length)
    (hbase : base + o.cells.length ≤ 2 ^ 64) (rest : Text) :
    ∃ o', doPercent base o va (field.modifier.text ++ field.letter.char :: rest)
        = some (o', va.next, rest) ∧ o'.Shows (text ++ field.output v) ∧
      o'.cells.length = o.cells.length := by
  have hpeek : peek (field.modifier.text ++ field.letter.char :: rest) ≠ 37 := by
    obtain ⟨modifier, letter⟩ := field
    cases modifier <;> cases letter <;> exact fun h => nomatch h
  obtain ⟨hexternal, hconvert⟩ := convert_field o ⟨43, 0, 0, field.modifier.howLong, 32⟩ (va 0)
    field.letter
  -- the sign and the digits are written one after the other
  have hwritten : ∃ o₁, convert o ⟨43, 0, 0, field.modifier.howLong, 32⟩ (va 0) field.letter.char
      = some o₁ ∧ o₁.Shows (text ++ field.output v) ∧ o₁.cells.length = o.cells.length := by
    rw [hconvert, formatInteger_field (by rfl) hpasses hholds]
    refine ⟨_, rfl, ?_⟩
    unfold Field.output at hroom ⊢
    by_cases hneg : v < 0
    · rw [if_pos hneg] at hroom ⊢
      rw [if_pos hneg]
      rw [List.length_append] at hroom
      obtain ⟨hsign, hlen⟩ := hshows.buffAdd [45] (by simp at hroom ⊢; omega)
      obtain ⟨hdigits, hlen'⟩ := hsign.buffAdd
        (digitsOf ⟨field.base, 64, false, false⟩ v.natAbs) (by
          rw [hlen, List.length_append]
          omega)
      rw [List.append_assoc] at hdigits
      exact ⟨hdigits, hlen'.trans hlen⟩
    · rw [if_neg hneg] at hroom ⊢
      rw [if_neg hneg]
      exact hshows.buffAdd _ hroom
  obtain ⟨o₁, hconvert₁, hshows₁, hlen₁⟩ := hwritten
  have hbefore : base + o.pos < 2 ^ 64 := by
    have hpos := hshows.1
    have hne := List.length_pos_iff.mpr (field.output_ne_nil v)
    omega
  obtain ⟨o', hjustify, hpos', hcells'⟩ := @justify_field base o₁ o.pos
    ⟨43, 0, 0, field.modifier.howLong, 32⟩ rfl hbefore
  refine ⟨o', ?_, ?_, ?_⟩
  · unfold doPercent
    rw [if_neg hpeek, takeSpec_field]
    simp only [Spec.info, Width.get, hexternal, if_false, hconvert₁, hjustify, Option.map_some]
  · unfold Out.Shows
    rw [hpos', hcells']
    exact hshows₁
  · rw [hcells', hlen₁]

/-! ## Runs -/

/-- Plain text is collected. -/
theorem vaFormatLoop_plain {t : Text} : ∀ {fuel : Nat} {run f : Text}, (∀ c ∈ t, c ≠ 37) →
    t.length ≤ fuel → vaFormatLoop base fuel o va run (t ++ f)
      = vaFormatLoop base (fuel - t.length) o va (run ++ t) f := by
  induction t with
  | nil => simp
  | cons c t ih =>
      intro fuel run f hplain hfuel
      obtain ⟨fuel, rfl⟩ : ∃ n, fuel = n + 1 := ⟨fuel - 1, by rw [List.length_cons] at hfuel; omega⟩
      rw [List.length_cons] at hfuel
      rw [List.cons_append, vaFormatLoop, if_neg (hplain c List.mem_cons_self),
        ih (fun c hc => hplain c (List.mem_cons_of_mem _ hc)) (by omega), List.append_assoc,
        List.length_cons, Nat.add_sub_add_right]
      rfl

/-- **The loop writes the output of the pieces.**  The induction is on the pieces. -/
theorem vaFormatLoop_pieces {pieces : List Piece} : ∀ {fuel : Nat} {o : Out} {va : VaList}
    {text run : Text}, (∀ p ∈ pieces, p.Plain) → Supplies va (conversions pieces) →
    o.Shows text → (format pieces).length < fuel →
    text.length + run.length + (output pieces).length ≤ o.cells.length →
    base + o.cells.length ≤ 2 ^ 64 →
    ∃ o', vaFormatLoop base fuel o va run (format pieces) = some o' ∧
      o'.Shows (text ++ run ++ output pieces) ∧ o'.cells.length = o.cells.length := by
  induction pieces with
  | nil =>
      intro fuel o va text run _ _ hshows hfuel hroom _
      obtain ⟨fuel, rfl⟩ : ∃ n, fuel = n + 1 := ⟨fuel - 1, by omega⟩
      obtain ⟨hrun, hlen⟩ := hshows.buffAdd run (by omega)
      refine ⟨_, rfl, ?_, hlen⟩
      simpa [output] using hrun
  | cons p pieces ih =>
      intro fuel o va text run hplain hsupplies hshows hfuel hroom hbase
      have hrest : ∀ q ∈ pieces, q.Plain := fun q hq => hplain q (List.mem_cons_of_mem _ hq)
      have hp : p.Plain := hplain p List.mem_cons_self
      have hformat : format (p :: pieces) = p.format ++ format pieces := List.flatMap_cons
      have houtput : output (p :: pieces) = p.output ++ output pieces := List.flatMap_cons
      rw [hformat] at hfuel ⊢
      rw [houtput] at hroom ⊢
      rw [List.length_append] at hfuel hroom
      cases p with
      | separator t =>
          change t.length + _ < _ at hfuel
          change _ + (t.length + _) ≤ _ at hroom
          show ∃ o', vaFormatLoop base fuel o va run (t ++ format pieces) = some o' ∧
            o'.Shows (text ++ run ++ (t ++ output pieces)) ∧ _
          rw [vaFormatLoop_plain hp (by omega)]
          obtain ⟨o', hloop, hshows', hlen⟩ := @ih (fuel - t.length) o va text (run ++ t) hrest
            hsupplies hshows (by omega) (by rw [List.length_append]; omega) hbase
          refine ⟨o', hloop, ?_, hlen⟩
          simpa [List.append_assoc] using hshows'
      | conversion field v =>
          obtain ⟨fuel, rfl⟩ : ∃ n, fuel = n + 1 := ⟨fuel - 1, by omega⟩
          have hpasses : field.Passes v (va 0) := hsupplies.1
          have hdirective : (Piece.conversion field v).format.length
              = (field.modifier.text ++ [field.letter.char]).length + 1 := rfl
          change _ + ((field.output v).length + _) ≤ _ at hroom
          obtain ⟨hrun, hlen⟩ := hshows.buffAdd run (by omega)
          obtain ⟨o₁, hpercent, hshows₁, hlen₁⟩ := doPercent_field hpasses hp hrun
            (by rw [hlen, List.length_append]; omega) (by rw [hlen]; exact hbase) (format pieces)
          obtain ⟨o', hloop, hshows', hlen'⟩ := @ih fuel o₁ va.next (text ++ run ++ field.output v) []
            hrest hsupplies.2 hshows₁ (by rw [hdirective] at hfuel; omega)
            (by rw [hlen₁, hlen, List.length_append, List.length_append, List.length_nil]; omega)
            (by rw [hlen₁, hlen]; exact hbase)
          refine ⟨o', ?_, ?_, by rw [hlen', hlen₁, hlen]⟩
          · show vaFormatLoop base (fuel + 1) o va run
              (37 :: (field.modifier.text ++ [field.letter.char]) ++ format pieces) = some o'
            rw [List.cons_append, List.append_assoc, vaFormatLoop, if_pos rfl]
            change (doPercent base (o.buffAdd run) va
              (field.modifier.text ++ field.letter.char :: format pieces)).bind _ = _
            rw [hpercent, Option.bind_some]
            exact hloop
          · rw [List.append_nil, List.append_assoc] at hshows'
            exact hshows'

/-- **`va_format` writes the output of the pieces** if there is room for it. -/
theorem vaFormat_pieces {size : Nat} {pieces : List Piece} (hplain : ∀ p ∈ pieces, p.Plain)
    (hsupplies : Supplies va (conversions pieces)) (hroom : (output pieces).length ≤ size)
    (hsize : size < 2 ^ 31) (hbase : base + size ≤ 2 ^ 64) :
    ∃ o : Out, vaFormat base size (format pieces) va = some (o, ((output pieces).length : Int)) ∧
      o.cells.take (output pieces).length = (output pieces).map some := by
  have hfresh : (Out.fresh size).Shows [] := ⟨rfl, rfl⟩
  have hlen : (Out.fresh size).cells.length = size := List.length_replicate
  obtain ⟨o, hloop, hshows, -⟩ := @vaFormatLoop_pieces base pieces ((format pieces).length + 1)
    (Out.fresh size) va [] [] hplain hsupplies hfresh (Nat.lt_succ_self _)
    (by simpa [hlen] using hroom) (by rw [hlen]; exact hbase)
  obtain ⟨hpos, hcells⟩ := hshows
  have hpos' : o.pos = (output pieces).length := hpos
  refine ⟨o, ?_, ?_⟩
  · rw [vaFormat, hloop, Option.bind_some, hpos', toInt_of_range (by omega), Option.map_some]
  · rw [← hpos']
    exact hcells

end Libubox.Format
