import Libubox.Lib.Bytes
import Mathlib.Data.Nat.Digits.Lemmas

/-!
# Bounded formatting

`va_format` without floating-point conversions.  Output goes to a buffer of which
it is known what was stored in it.  Faults (`none`) are a store outside it, a position
in front of it or behind its end, and a conversion to `int` of a number that is none.

Appending never leaves the buffer.  What can is the padding of a field, and
`vaFormat_bounded` says exactly when it does.
-/

namespace Libubox.Format

open Bytes

abbrev Text := List UInt8

/-! ## The source -/

/-- The output buffer, with what was stored where, and the position in it. -/
structure Out where
  pos : Nat
  cells : List (Option UInt8)
  pos_le : pos ≤ cells.length

/-- An argument, as a number and as a string; `none` is a null pointer. -/
structure Arg where
  word : Nat
  str : Option Text

/-- The arguments that are left. -/
abbrev VaList := Nat → Arg

def VaList.next (va : VaList) : VaList := fun n => va (n + 1)

/-- An `int` in an argument. -/
def Arg.int (a : Arg) : Int := Int.bmod a.word (2 ^ 32)

/-- The conversion of a number to `int`. -/
def toInt (n : Int) : Option Int := if -2 ^ 31 ≤ n ∧ n < 2 ^ 31 then some n else none

/-- A number as an `uword`. -/
def toUword (n : Int) : Nat := (n % 2 ^ 64).toNat

/-- `end - s`. -/
def Out.room (o : Out) : Nat := o.cells.length - o.pos

/-- Store bytes at `off`. -/
def Out.store (o : Out) (off : Nat) (bs : List (Option UInt8)) : Option Out :=
  if h : off + bs.length ≤ o.cells.length then
    some { o with
      cells := overwrite o.cells off bs
      pos_le := by
        rw [overwrite_length h]
        exact o.pos_le }
  else none

/-- `s += n` for an `int`. -/
def Out.advance (o : Out) (n : Int) : Option Out :=
  (toInt n).bind fun n =>
    if h : 0 ≤ o.pos + n ∧ o.pos + n ≤ o.cells.length then
      some { o with pos := (o.pos + n).toNat, pos_le := by omega }
    else none

/-- `s += buff_add(s, end, src, size)`: all of it or nothing. -/
def Out.buffAdd (o : Out) (bs : Text) : Out :=
  if h : bs.length ≤ o.room then
    { pos := o.pos + bs.length
      cells := overwrite o.cells o.pos (bs.map some)
      pos_le := by
        have hle := o.pos_le
        unfold Out.room at h
        rw [overwrite_length (by rw [List.length_map]; omega)]
        omega }
  else o

/-- `s += buff_add1(s, end, c)`. -/
def Out.buffAdd1 (o : Out) (c : UInt8) : Out := o.buffAdd [c]

/-- `format_info_t`. -/
structure FormatInfo where
  justify : UInt8
  width0 : Nat
  width1 : Nat
  howLong : UInt8
  padChar : UInt8

/-- `format_integer_options_t`. -/
structure IntegerOptions where
  base : Nat
  nBits : Nat
  isSigned : Bool
  uppercaseDigits : Bool

/-- The character of a digit. -/
def digitChar (uppercase : Bool) (r : Nat) : UInt8 :=
  if r < 10 then UInt8.ofNat (48 + r)
  else if r < 36 then UInt8.ofNat ((if uppercase then 65 else 97) + (r - 10))
  else UInt8.ofNat (65 + (r - 36))

/-- The digits of a number. -/
def digitsOf (options : IntegerOptions) (number : Nat) : Text :=
  if number = 0 then [digitChar options.uppercaseDigits 0]
  else ((Nat.digits options.base number).map (digitChar options.uppercaseDigits)).reverse

/-- `format_integer`. -/
def formatInteger (o : Out) (number : Nat) (options : IntegerOptions) : Out :=
  let negative := options.isSigned && decide (2 ^ 63 ≤ number)
  let o := if negative then o.buffAdd1 45 else o
  let number := if negative then (2 ^ 64 - number) % 2 ^ 64 else number
  let number := if options.nBits < 64 then number % 2 ^ options.nBits else number
  o.buffAdd (digitsOf options number)

/-- How many bytes of padding go on each side. -/
def padding (justify : UInt8) (n : Nat) : Nat × Nat :=
  if justify = 45 then (0, n)
  else if justify = 43 then (n, 0)
  else if justify = 61 then (n / 2 + n % 2, n / 2)
  else (0, 0)

/-- The part of `justify` that makes room on the left of the field that starts at
`i0`: the number of bytes `s` moves on by. -/
def padLeft (o : Out) (padChar : UInt8) (i0 left : Nat) : Option (Out × Nat) :=
  if 0 < left then
    if o.room < left then some (o, 0)
    else
      (o.store (i0 + left) ((o.cells.drop i0).take (o.pos - i0))).bind fun o =>
        (toInt left).bind fun n =>
          (o.store i0 (List.replicate n.toNat (some padChar))).map fun o => (o, n.toNat)
  else some (o, 0)

/-- The part of `justify` that pads on the right, and its result: `left` bytes were
put in front of the field in `o'`. -/
def padRight (o : Out) (padChar : UInt8) (right : Nat) (o' : Out) (left : Nat) : Option Out :=
  -- the room is that behind the field where it was before
  if 0 < right ∧ right ≤ o.room then
    (o'.store (o.pos + left) (List.replicate right (some padChar))).bind fun o' =>
      o'.advance ((left + right : Nat) : Int)
  else o'.advance (left : Int)

/-- `i0 + fi->width[0]`, relative to the buffer at `base`. -/
def fieldEnd (base i0 width : Nat) : Int := ((base + i0 + width) % 2 ^ 64 : Nat) - base

/-- `s += justify(s, end, fi, i0)`, in a buffer at the address `base`. -/
def justify (base : Nat) (o : Out) (fi : FormatInfo) (i0 : Nat) : Option Out :=
  let l1 : Int := o.pos
  let l0 := fieldEnd base i0 fi.width0
  -- if width is zero user returned width
  let l0 := if l0 = i0 then l1 else l0
  if l0 < l1 then o.advance (l0 - l1)
  else
    let n := padding fi.justify (l0 - l1).toNat
    (padLeft o fi.padChar i0 n.1).bind fun r => padRight o fi.padChar n.2 r.1 r.2

/-- The character at the cursor; zero at the end. -/
def peek (f : Text) : UInt8 := f.headD 0

/-- A width in digits: `10 * width + (c - '0')`. -/
def takeDigits (width : Nat) : Text → Nat × Text
  | [] => (width, [])
  | c :: f =>
      if 48 ≤ c ∧ c ≤ 57 then takeDigits ((10 * width + (c.toNat - 48)) % 2 ^ 64) f
      else (width, c :: f)

/-- A width as it is written: `none` is `*`. -/
abbrev Width := Option Nat

/-- One of the two widths. -/
def takeWidth (f : Text) : Width × Text :=
  if peek f = 42 then (none, f.tail) else ((takeDigits 0 f).1, (takeDigits 0 f).2)

/-- What stands between `%` and the letter. -/
structure Spec where
  justify : UInt8
  padChar : UInt8
  width0 : Width
  width1 : Width
  howLong : UInt8

/-- The flag, the widths and how long the argument is. -/
def takeSpec (f : Text) : Spec × Text :=
  let flag := decide (peek f = 45 ∨ peek f = 43 ∨ peek f = 61)
  let just := if flag then peek f else 43
  let f := if flag then f.tail else f
  let padChar := if peek f = 48 then 48 else 32
  let (width0, f) := takeWidth f
  let point := decide (peek f = 46)
  let (width1, f) := if point then takeWidth f.tail else (some 0, f)
  -- the loop skips a point behind the second width, too
  let f := if point ∧ peek f = 46 then f.tail else f
  let (howLong, f) :=
    if peek f = 119 then (119, f.tail)
    else if peek f = 76 ∨ peek f = 108 then
      if peek f.tail = 108 then (76, f.tail.tail) else (peek f, f.tail)
    else (0, f)
  (⟨just, padChar, width0, width1, howLong⟩, f)

/-- The width, and the arguments behind it. -/
def Width.get (va : VaList) : Width → Nat × VaList
  | none => (toUword (va 0).int, va.next)
  | some n => (n, va)

/-- `format_info_t` with the widths that come from arguments. -/
def Spec.info (va : VaList) (spec : Spec) : FormatInfo × VaList :=
  let (width0, va) := spec.width0.get va
  let (width1, va) := spec.width1.get va
  (⟨spec.justify, width0, width1, spec.howLong, spec.padChar⟩, va)

/-- The bytes of a string argument. -/
def stringBytes (fi : FormatInfo) : Option Text → Text
  | none => [40, 110, 105, 108, 41]
  | some str => if fi.width1 ≠ 0 then str.take fi.width1 else str

/-- The argument of an integer conversion as a `u64`, and its bits. -/
def integerArg (fi : FormatInfo) (a : Arg) : Nat × Nat :=
  if fi.howLong = 76 ∨ fi.howLong = 108 ∨ fi.howLong = 119 then (a.word % 2 ^ 64, 64)
  else (toUword a.int, 32)

/-- The conversions of numbers that are not modelled, and that of the caller. -/
def IsExternal (c : UInt8) : Prop := c = 101 ∨ c = 102 ∨ c = 103 ∨ c = 85

instance (c : UInt8) : Decidable (IsExternal c) := inferInstanceAs (Decidable (_ ∨ _ ∨ _ ∨ _))

/-- The field that the letter `c` writes; `none` is an unknown letter. -/
def convert (o : Out) (fi : FormatInfo) (a : Arg) (c : UInt8) : Option Out :=
  if c = 99 then some (o.buffAdd1 (UInt8.ofNat a.word))
  else if c = 112 then
    some (formatInteger ((o.buffAdd1 48).buffAdd1 120) (a.word % 2 ^ 64) ⟨16, 64, false, false⟩)
  else if c = 120 ∨ c = 88 ∨ c = 117 ∨ c = 100 then
    let base := if c = 120 ∨ c = 88 then 16 else 10
    some (formatInteger o (integerArg fi a).1 ⟨base, (integerArg fi a).2, c = 100, c = 88⟩)
  else if c = 83 then
    some ((stringBytes fi a.str).foldl (fun o c => o.buffAdd1 (if c = 95 then 32 else c)) o)
  else if c = 115 then some (o.buffAdd (stringBytes fi a.str))
  else none

/-- What the call of `format` writes for an unknown letter. -/
def unknownFormat (o : Out) (c : UInt8) : Out :=
  let front : Text := [42, 42, 42, 42, 32, 67, 76, 73, 66, 32, 117, 110, 107, 110, 111, 119, 110, 32,
    102, 111, 114, 109, 97, 116, 32, 96]
  let back : Text := [39, 32, 42, 42, 42, 42]
  (((o.buffAdd front).buffAdd1 37).buffAdd1 c).buffAdd back

/-- `do_percent` behind the `%`: the output, the arguments and the format that are
left. -/
def doPercent (base : Nat) (o : Out) (va : VaList) (f : Text) : Option (Out × VaList × Text) :=
  if peek f = 37 then some (o.buffAdd1 37, va, f.tail)
  else
    let (spec, f) := takeSpec f
    let (fi, va) := spec.info va
    match f with
    | [] => some (o, va, [])
    | c :: f =>
        if IsExternal c then none
        else
          match convert o fi (va 0) c with
          | none => some (unknownFormat o c, va, f)
          | some o' => (justify base o' fi o.pos).map fun o' => (o', va.next, f)

/-- The loop of `va_format` at `f`; `run` are the bytes from `g` on. -/
def vaFormatLoop (base : Nat) : Nat → Out → VaList → Text → Text → Option Out
  | 0, _, _, _, _ => none
  | _ + 1, o, _, run, [] => some (o.buffAdd run)
  | fuel + 1, o, va, run, c :: f =>
      if c = 37 then
        (doPercent base (o.buffAdd run) va f).bind fun (o, va, f) => vaFormatLoop base fuel o va [] f
      else vaFormatLoop base fuel o va (run ++ [c]) f

/-- A buffer in which nothing was stored. -/
def Out.fresh (size : Nat) : Out := ⟨0, List.replicate size none, Nat.zero_le _⟩

/-- `va_format` into `size` bytes at the address `base`: the buffer and the result. -/
def vaFormat (base size : Nat) (fmt : Text) (va : VaList) : Option (Out × Int) :=
  (vaFormatLoop base (fmt.length + 1) (Out.fresh size) va [] fmt).bind fun o =>
    (toInt o.pos).map fun n => (o, n)

/-! ## The condition -/

/-- The padding of the field from `i0` to `l1` stays in a buffer of `size` bytes at
`base`: a width that wraps does not reach in front of the buffer, and where there is
room for the padding on either side there is room for both.  All of it is `int`. -/
def PadFits (base size : Nat) (fi : FormatInfo) (i0 l1 : Nat) : Prop :=
  let l0 := fieldEnd base i0 fi.width0
  if l0 = i0 then True
  else if l0 < l1 then 0 ≤ l0 ∧ l1 - l0 ≤ 2 ^ 31
  else
    let n := padding fi.justify (l0 - l1).toNat
    let left := if n.1 ≤ size - l1 then n.1 else 0
    let right := if n.2 ≤ size - l1 then n.2 else 0
    left + right ≤ size - l1 ∧ left + right < 2 ^ 31

/-- The padding of the directive behind a `%` stays in the buffer. -/
def DirectiveFits (base : Nat) (o : Out) (va : VaList) (f : Text) : Prop :=
  if peek f = 37 then True
  else
    match (takeSpec f).2 with
    | [] => True
    | c :: _ =>
        let info := (takeSpec f).1.info va
        match convert o info.1 (info.2 0) c with
        | none => True
        | some o' => PadFits base o.cells.length info.1 o.pos o'.pos

/-- The padding of every directive from `f` on stays in the buffer, and the length is
an `int`. -/
def Fits (base : Nat) : Nat → Out → VaList → Text → Text → Prop
  | 0, _, _, _, _ => True
  | _ + 1, o, _, run, [] => (o.buffAdd run).pos < 2 ^ 31
  | fuel + 1, o, va, run, c :: f =>
      if c = 37 then
        DirectiveFits base (o.buffAdd run) va f ∧
          ∀ r, doPercent base (o.buffAdd run) va f = some r → Fits base fuel r.1 r.2.1 [] r.2.2
      else Fits base fuel o va (run ++ [c]) f

/-- No directive is one of those that are not modelled. -/
def Plain : Nat → Text → Prop
  | 0, _ => True
  | _ + 1, [] => True
  | fuel + 1, c :: f =>
      if c = 37 then
        if peek f = 37 then Plain fuel f.tail
        else (∀ c ∈ (takeSpec f).2.head?, ¬IsExternal c) ∧ Plain fuel (takeSpec f).2.tail
      else Plain fuel f

/-- The call stores in the buffer only and returns a length of bytes it has stored. -/
def Bounded (size : Nat) (r : Option (Out × Int)) : Prop :=
  ∃ o n, r = some (o, n) ∧ 0 ≤ n ∧ n ≤ size ∧ ∀ i < n.toNat, ∃ c, o.cells[i]? = some (some c)

theorem toInt_of_range {n : Int} (h : -2 ^ 31 ≤ n ∧ n < 2 ^ 31) : toInt n = some n := if_pos h

/-! ## What is stored -/

/-- Everything in front of the position was stored. -/
def Out.Filled (o : Out) : Prop := ∀ i < o.pos, ∃ c, o.cells[i]? = some (some c)

/-- A step that appends. -/
structure Grows (o o' : Out) : Prop where
  length : o'.cells.length = o.cells.length
  le : o.pos ≤ o'.pos
  filled : o.Filled → o'.Filled

theorem Grows.refl (o : Out) : Grows o o := ⟨rfl, Nat.le_refl _, id⟩

theorem Grows.trans {o₁ o₂ o₃ : Out} (h : Grows o₁ o₂) (h' : Grows o₂ o₃) : Grows o₁ o₃ :=
  ⟨h'.length.trans h.length, Nat.le_trans h.le h'.le, fun hfilled => h'.filled (h.filled hfilled)⟩

theorem grows_buffAdd (o : Out) (bs : Text) : Grows o (o.buffAdd bs) := by
  unfold Out.buffAdd
  split
  · next h =>
      have hroom : o.pos + (bs.map some).length ≤ o.cells.length := by
        have := o.pos_le
        unfold Out.room at h
        rw [List.length_map]
        omega
      refine ⟨overwrite_length hroom, Nat.le_add_right _ _, fun hfilled i hi => ?_⟩
      simp only at hi ⊢
      rw [getElem?_overwrite hroom, List.length_map]
      by_cases hold : i < o.pos
      · rw [if_neg (by omega)]
        exact hfilled i hold
      · rw [if_pos (by omega), List.getElem?_map, List.getElem?_eq_getElem (by omega)]
        exact ⟨_, rfl⟩
  · exact Grows.refl o

theorem grows_formatInteger (o : Out) (number : Nat) (options : IntegerOptions) :
    Grows o (formatInteger o number options) := by
  unfold formatInteger
  refine Grows.trans ?_ (grows_buffAdd _ _)
  split
  · exact grows_buffAdd o _
  · exact Grows.refl o

theorem grows_foldl (f : UInt8 → UInt8) (bs : Text) :
    ∀ o : Out, Grows o (bs.foldl (fun o c => o.buffAdd1 (f c)) o) := by
  induction bs with
  | nil => exact fun o => Grows.refl o
  | cons c bs ih => exact fun o => (grows_buffAdd o [f c]).trans (ih _)

/-- Every conversion appends. -/
theorem grows_convert {o o' : Out} {fi : FormatInfo} {a : Arg} {c : UInt8}
    (h : convert o fi a c = some o') : Grows o o' := by
  unfold convert at h
  split at h
  · cases h
    exact grows_buffAdd o _
  split at h
  · cases h
    exact ((grows_buffAdd o _).trans (grows_buffAdd _ _)).trans (grows_formatInteger _ _ _)
  split at h
  · cases h
    exact grows_formatInteger o _ _
  split at h
  · cases h
    exact grows_foldl _ _ o
  split at h
  · cases h
    exact grows_buffAdd o _
  · cases h

theorem grows_unknownFormat (o : Out) (c : UInt8) : Grows o (unknownFormat o c) :=
  (((grows_buffAdd o _).trans (grows_buffAdd _ _)).trans (grows_buffAdd _ _)).trans
    (grows_buffAdd _ _)

/-! ## Padding -/

theorem store_spec {o : Out} {off : Nat} {bs : List (Option UInt8)}
    (h : off + bs.length ≤ o.cells.length) :
    ∃ o', o.store off bs = some o' ∧ o'.pos = o.pos ∧ o'.cells = overwrite o.cells off bs :=
  ⟨_, dif_pos h, rfl, rfl⟩

theorem store_eq_none {o : Out} {off : Nat} {bs : List (Option UInt8)}
    (h : ¬off + bs.length ≤ o.cells.length) : o.store off bs = none := dif_neg h

theorem advance_spec {o : Out} {n : Int} (hint : -2 ^ 31 ≤ n ∧ n < 2 ^ 31)
    (hpos : 0 ≤ o.pos + n ∧ o.pos + n ≤ o.cells.length) :
    ∃ o', o.advance n = some o' ∧ (o'.pos : Int) = o.pos + n ∧ o'.cells = o.cells := by
  refine ⟨⟨(o.pos + n).toNat, o.cells, by omega⟩, ?_, ?_, rfl⟩
  · rw [Out.advance, toInt, if_pos hint, Option.bind_some, dif_pos hpos]
  · exact Int.toNat_of_nonneg hpos.1

theorem advance_eq_none {o : Out} {n : Int}
    (h : ¬((-2 ^ 31 ≤ n ∧ n < 2 ^ 31) ∧ 0 ≤ o.pos + n ∧ o.pos + n ≤ o.cells.length)) :
    o.advance n = none := by
  unfold Out.advance toInt
  by_cases hint : -2 ^ 31 ≤ n ∧ n < 2 ^ 31
  · rw [if_pos hint, Option.bind_some, dif_neg fun hpos => h ⟨hint, hpos⟩]
  · rw [if_neg hint, Option.bind_none]

/-- The bytes from `i0` to the position, moved by `left` with padding in front. -/
structure PaddedLeft (o o' : Out) (i0 left : Nat) : Prop where
  pos : o'.pos = o.pos
  length : o'.cells.length = o.cells.length
  cells : o.Filled → ∀ i < o.pos + left, ∃ c, o'.cells[i]? = some (some c)

/-- Padding on the left is made if there is room for it. -/
theorem padLeft_spec {o : Out} {i0 left : Nat} (c : UInt8) (hi0 : i0 ≤ o.pos)
    (hleft : left ≤ o.room → left < 2 ^ 31) :
    ∃ o', padLeft o c i0 left = some (o', if left ≤ o.room then left else 0) ∧
      PaddedLeft o o' i0 (if left ≤ o.room then left else 0) := by
  by_cases hzero : 0 < left
  · by_cases hroom : o.room < left
    · refine ⟨o, ?_, rfl, rfl, fun hfilled => ?_⟩
      · rw [padLeft, if_pos hzero, if_pos hroom, if_neg (by omega)]
      · rw [if_neg (by omega)]
        exact hfilled
    · have hle : left ≤ o.cells.length - o.pos := by
        unfold Out.room at hroom
        omega
      have hpos := o.pos_le
      have hmoved : ((o.cells.drop i0).take (o.pos - i0)).length = o.pos - i0 := by
        rw [List.length_take, List.length_drop]
        omega
      obtain ⟨o₁, hstore₁, hpos₁, hcells₁⟩ := @store_spec o (i0 + left)
        ((o.cells.drop i0).take (o.pos - i0)) (by rw [hmoved]; omega)
      have hlen₁ : o₁.cells.length = o.cells.length := by
        rw [hcells₁, overwrite_length (by rw [hmoved]; omega)]
      obtain ⟨o₂, hstore₂, hpos₂, hcells₂⟩ := @store_spec o₁ i0 (List.replicate left (some c))
        (by rw [List.length_replicate]; omega)
      refine ⟨o₂, ?_, ?_⟩
      · have hint : toInt left = some (left : Int) :=
          toInt_of_range ⟨by omega, by have := hleft (by omega); omega⟩
        rw [padLeft, if_pos hzero, if_neg hroom, hstore₁, Option.bind_some, hint, Option.bind_some,
          Int.toNat_natCast, hstore₂, Option.map_some, if_pos (by omega)]
      · rw [if_pos (by omega)]
        refine ⟨hpos₂.trans hpos₁, ?_, fun hfilled i hi => ?_⟩
        · rw [hcells₂, overwrite_length (by rw [List.length_replicate]; omega), hlen₁]
        · rw [hcells₂, getElem?_overwrite (by rw [List.length_replicate]; omega),
            List.length_replicate]
          by_cases hpad : i0 ≤ i ∧ i < i0 + left
          · rw [if_pos hpad, List.getElem?_replicate, if_pos (by omega)]
            exact ⟨c, rfl⟩
          · rw [if_neg hpad, hcells₁, getElem?_overwrite (by rw [hmoved]; omega), hmoved]
            by_cases hfield : i0 + left ≤ i
            · rw [if_pos (by omega), List.getElem?_take, if_pos (by omega), List.getElem?_drop]
              exact hfilled _ (by omega)
            · rw [if_neg (by omega)]
              exact hfilled i (by omega)
  · obtain rfl : left = 0 := by omega
    refine ⟨o, ?_, rfl, rfl, fun hfilled => ?_⟩
    · simp [padLeft]
    · rw [ite_self]
      exact hfilled

theorem padLeft_eq_none {o : Out} {i0 left : Nat} (c : UInt8) (hroom : left ≤ o.room)
    (hleft : 2 ^ 31 ≤ left) : padLeft o c i0 left = none := by
  have hint : toInt left = none := by
    unfold toInt
    rw [if_neg (by omega)]
  rw [padLeft, if_pos (by omega), if_neg (by omega), hint]
  cases o.store (i0 + left) ((o.cells.drop i0).take (o.pos - i0)) <;> rfl

/-- Padding on the right is made if there is room for it behind that on the left. -/
theorem padRight_spec {o o' : Out} {i0 left right : Nat} (c : UInt8) (h : PaddedLeft o o' i0 left)
    (hfits : left + (if right ≤ o.room then right else 0) ≤ o.room ∧
      left + (if right ≤ o.room then right else 0) < 2 ^ 31) :
    ∃ o'', padRight o c right o' left = some o'' ∧ o''.cells.length = o.cells.length ∧
      (o.Filled → o''.Filled) := by
  have hpos := h.pos
  have hlen := h.length
  have hle := o.pos_le
  have hroom : o.pos + o.room = o.cells.length := by
    unfold Out.room
    omega
  unfold padRight
  by_cases hright : 0 < right ∧ right ≤ o.room
  · rw [if_pos hright.2] at hfits
    obtain ⟨o₂, hstore, hpos₂, hcells₂⟩ := @store_spec o' (o.pos + left)
      (List.replicate right (some c)) (by rw [List.length_replicate]; omega)
    have hlen₂ : o₂.cells.length = o.cells.length := by
      rw [hcells₂, overwrite_length (by rw [List.length_replicate]; omega), hlen]
    obtain ⟨o₃, hadv, hpos₃, hcells₃⟩ := @advance_spec o₂ ((left + right : Nat) : Int) (by omega)
      (by omega)
    refine ⟨o₃, ?_, by rw [hcells₃, hlen₂], fun hfilled i hi => ?_⟩
    · rw [if_pos hright, hstore, Option.bind_some, hadv]
    · rw [hcells₃, hcells₂, getElem?_overwrite (by rw [List.length_replicate]; omega),
        List.length_replicate]
      by_cases hpad : o.pos + left ≤ i
      · rw [if_pos (by omega), List.getElem?_replicate, if_pos (by omega)]
        exact ⟨_, rfl⟩
      · rw [if_neg (by omega)]
        exact h.cells hfilled i (by omega)
  · have hzero : (if right ≤ o.room then right else 0) = 0 := by
      split <;> omega
    rw [hzero] at hfits
    obtain ⟨o₂, hadv, hpos₂, hcells₂⟩ := @advance_spec o' (left : Int) (by omega) (by omega)
    refine ⟨o₂, ?_, by rw [hcells₂, hlen], fun hfilled i hi => ?_⟩
    · rw [if_neg hright, hadv]
    · rw [hcells₂]
      exact h.cells hfilled i (by omega)

theorem padRight_eq_none {o o' : Out} {i0 left right : Nat} (c : UInt8)
    (h : PaddedLeft o o' i0 left) (hleft : left ≤ o.room ∧ left < 2 ^ 31)
    (hfits : ¬(left + (if right ≤ o.room then right else 0) ≤ o.room ∧
      left + (if right ≤ o.room then right else 0) < 2 ^ 31)) :
    padRight o c right o' left = none := by
  have hpos := h.pos
  have hlen := h.length
  have hle := o.pos_le
  have hroom : o.pos + o.room = o.cells.length := by
    unfold Out.room
    omega
  unfold padRight
  by_cases hright : 0 < right ∧ right ≤ o.room
  · rw [if_pos hright.2] at hfits
    rw [if_pos hright]
    by_cases hstay : o.pos + left + right ≤ o.cells.length
    · obtain ⟨o₂, hstore, hpos₂, hcells₂⟩ := @store_spec o' (o.pos + left)
        (List.replicate right (some c)) (by rw [List.length_replicate]; omega)
      have hlen₂ : o₂.cells.length = o.cells.length := by
        rw [hcells₂, overwrite_length (by rw [List.length_replicate]; omega), hlen]
      rw [hstore, Option.bind_some]
      exact advance_eq_none (by omega)
    · rw [store_eq_none (by rw [List.length_replicate]; omega), Option.bind_none]
  · have hzero : (if right ≤ o.room then right else 0) = 0 := by
      split <;> omega
    rw [hzero] at hfits
    omega

/-- `padding` of nothing is nothing. -/
theorem padding_zero (just : UInt8) : padding just 0 = (0, 0) := by
  unfold padding
  split
  · rfl
  split
  · rfl
  split <;> rfl

/-- **The padding of a field that stays in the buffer is made.** -/
theorem justify_spec {base : Nat} {o : Out} {fi : FormatInfo} {i0 : Nat} (hi0 : i0 ≤ o.pos)
    (hfits : PadFits base o.cells.length fi i0 o.pos) :
    ∃ o', justify base o fi i0 = some o' ∧ o'.cells.length = o.cells.length ∧
      (o.Filled → o'.Filled) := by
  have hspace : o.cells.length - o.pos = o.room := rfl
  have hpos := o.pos_le
  unfold PadFits at hfits
  unfold justify
  generalize fieldEnd base i0 fi.width0 = l0 at *
  by_cases hzero : l0 = i0
  · obtain ⟨o', hadv, hpos', hcells⟩ := @advance_spec o ((0 : Nat) : Int) (by omega) (by omega)
    refine ⟨o', ?_, by rw [hcells], fun hfilled i hi => ?_⟩
    · simp only [hzero, if_true, lt_irrefl, if_false, Int.sub_self, Int.toNat_zero, padding_zero,
        padLeft, padRight, Option.bind_some, false_and, hadv]
    · rw [hcells]
      exact hfilled i (by omega)
  rw [if_neg hzero] at hfits
  simp only [hzero, if_false]
  by_cases hlt : l0 < o.pos
  · rw [if_pos hlt] at hfits ⊢
    obtain ⟨o', hadv, hpos', hcells⟩ := @advance_spec o (l0 - o.pos) (by omega) (by omega)
    refine ⟨o', hadv, by rw [hcells], fun hfilled i hi => ?_⟩
    rw [hcells]
    exact hfilled i (by omega)
  · rw [if_neg hlt] at hfits ⊢
    dsimp only at hfits
    generalize padding fi.justify (l0 - (o.pos : Int)).toNat = n at *
    rw [hspace] at hfits
    obtain ⟨o₁, hleft, h₁⟩ := @padLeft_spec o i0 n.1 fi.padChar hi0
      fun hle => by rw [if_pos hle] at hfits; omega
    obtain ⟨o₂, hright, h₂⟩ := padRight_spec fi.padChar h₁ hfits
    exact ⟨o₂, by rw [hleft, Option.bind_some, hright], h₂⟩

/-- Padding that leaves the buffer is a fault. -/
theorem justify_eq_none {base : Nat} {o : Out} {fi : FormatInfo} {i0 : Nat} (hi0 : i0 ≤ o.pos)
    (hfits : ¬PadFits base o.cells.length fi i0 o.pos) : justify base o fi i0 = none := by
  have hspace : o.cells.length - o.pos = o.room := rfl
  have hpos := o.pos_le
  unfold PadFits at hfits
  unfold justify
  generalize fieldEnd base i0 fi.width0 = l0 at *
  by_cases hzero : l0 = i0
  · exact absurd trivial (by rwa [if_pos hzero] at hfits)
  rw [if_neg hzero] at hfits
  simp only [hzero, if_false]
  by_cases hlt : l0 < o.pos
  · rw [if_pos hlt] at hfits ⊢
    exact advance_eq_none (by omega)
  · rw [if_neg hlt] at hfits ⊢
    dsimp only at hfits
    generalize padding fi.justify (l0 - (o.pos : Int)).toNat = n at *
    rw [hspace] at hfits
    by_cases hbig : n.1 ≤ o.room ∧ 2 ^ 31 ≤ n.1
    · rw [padLeft_eq_none fi.padChar hbig.1 hbig.2, Option.bind_none]
    · obtain ⟨o₁, hleft, h₁⟩ := @padLeft_spec o i0 n.1 fi.padChar hi0 (by omega)
      rw [hleft, Option.bind_some]
      refine padRight_eq_none fi.padChar h₁ ?_ hfits
      split <;> omega

/-! ## Runs -/

/-- A directive whose padding stays in the buffer is carried out. -/
theorem doPercent_spec {base : Nat} {o : Out} {va : VaList} {f : Text}
    (hplain : peek f = 37 ∨ ∀ c ∈ (takeSpec f).2.head?, ¬IsExternal c)
    (hfits : DirectiveFits base o va f) :
    ∃ o' va', doPercent base o va f
        = some (o', va', if peek f = 37 then f.tail else (takeSpec f).2.tail) ∧
      o'.cells.length = o.cells.length ∧ (o.Filled → o'.Filled) := by
  unfold doPercent
  unfold DirectiveFits at hfits
  by_cases hpercent : peek f = 37
  · have hgrows := grows_buffAdd o [37]
    simp only [hpercent, if_true]
    exact ⟨_, va, rfl, hgrows.length, hgrows.filled⟩
  have hplain := hplain.resolve_left hpercent
  simp only [hpercent, if_false] at hfits ⊢
  cases hrest : (takeSpec f).2 with
  | nil => exact ⟨o, _, rfl, rfl, id⟩
  | cons c f' =>
      rw [hrest] at hfits hplain
      have hc : ¬IsExternal c := hplain c rfl
      simp only [hc, if_false] at hfits ⊢
      cases hconvert : convert o ((takeSpec f).1.info va).1 (((takeSpec f).1.info va).2 0) c with
      | none =>
          have hgrows := grows_unknownFormat o c
          exact ⟨_, _, rfl, hgrows.length, hgrows.filled⟩
      | some o₁ =>
          have hgrows := grows_convert hconvert
          rw [hconvert] at hfits
          simp only at hfits ⊢
          rw [← hgrows.length] at hfits
          obtain ⟨o₂, hjustify, hlength, hfilled⟩ := justify_spec hgrows.le hfits
          refine ⟨o₂, (((takeSpec f).1.info va).2).next, ?_, hlength.trans hgrows.length, fun h => hfilled (hgrows.filled h)⟩
          rw [hjustify]
          rfl

/-- Any other directive is a fault. -/
theorem doPercent_eq_none {base : Nat} {o : Out} {va : VaList} {f : Text}
    (hfits : ¬DirectiveFits base o va f) : doPercent base o va f = none := by
  unfold doPercent
  unfold DirectiveFits at hfits
  by_cases hpercent : peek f = 37
  · exact absurd trivial (by rwa [if_pos hpercent] at hfits)
  simp only [hpercent, if_false] at hfits ⊢
  cases hrest : (takeSpec f).2 with
  | nil =>
      rw [hrest] at hfits
      exact absurd trivial hfits
  | cons c f' =>
      rw [hrest] at hfits
      simp only at hfits ⊢
      split
      · rfl
      cases hconvert : convert o ((takeSpec f).1.info va).1 (((takeSpec f).1.info va).2 0) c with
      | none =>
          rw [hconvert] at hfits
          exact absurd trivial hfits
      | some o₁ =>
          have hgrows := grows_convert hconvert
          rw [hconvert] at hfits
          simp only at hfits ⊢
          rw [← hgrows.length] at hfits
          rw [justify_eq_none hgrows.le hfits, Option.map_none]

theorem takeDigits_length (f : Text) : ∀ width, (takeDigits width f).2.length ≤ f.length := by
  induction f with
  | nil => exact fun _ => Nat.le_refl _
  | cons c f ih =>
      intro width
      unfold takeDigits
      split
      · exact Nat.le_succ_of_le (ih _)
      · exact Nat.le_refl _

theorem takeWidth_length (f : Text) : (takeWidth f).2.length ≤ f.length := by
  unfold takeWidth
  split
  · rw [List.length_tail]
    omega
  · exact takeDigits_length f 0

theorem takeSpec_length (f : Text) : (takeSpec f).2.length ≤ f.length := by
  have htail : ∀ (p : Prop) [Decidable p] (f : Text), (if p then f.tail else f).length ≤ f.length := by
    intro p _ f
    split
    · rw [List.length_tail]
      omega
    · exact Nat.le_refl _
  have hlong : ∀ f : Text, (if peek f = 119 then ((119 : UInt8), f.tail)
      else if peek f = 76 ∨ peek f = 108 then
        if peek f.tail = 108 then (76, f.tail.tail) else (peek f, f.tail)
      else (0, f)).2.length ≤ f.length := by
    intro f
    split
    · exact (List.length_tail.trans_le (Nat.sub_le _ _))
    split
    · split
      · simp only [List.length_tail]
        omega
      · simp only [List.length_tail]
        omega
    · exact Nat.le_refl _
  have hpoint : ∀ (b : Bool) (f : Text),
      (if b then takeWidth f.tail else (some 0, f)).2.length ≤ f.length := by
    intro b f
    split
    · exact (takeWidth_length _).trans (List.length_tail.trans_le (Nat.sub_le _ _))
    · exact Nat.le_refl _
  unfold takeSpec
  dsimp only
  refine (hlong _).trans ?_
  refine (htail _ _).trans ?_
  refine (hpoint _ _).trans ?_
  exact (takeWidth_length _).trans (htail _ _)

/-- **The loop stays in the buffer exactly if every directive does.**  The induction
is on the fuel, which the rest of the format bounds. -/
theorem vaFormatLoop_spec {base fuel : Nat} : ∀ {o : Out} {va : VaList} {run f : Text},
    f.length < fuel → Plain fuel f →
    ((∃ o', vaFormatLoop base fuel o va run f = some o' ∧ o'.pos < 2 ^ 31) ↔
      Fits base fuel o va run f) ∧
    ∀ o', vaFormatLoop base fuel o va run f = some o' →
      o'.cells.length = o.cells.length ∧ (o.Filled → o'.Filled) := by
  induction fuel with
  | zero => exact fun hfuel => absurd hfuel (Nat.not_lt_zero _)
  | succ fuel ih =>
      intro o va run f hfuel hplain
      cases f with
      | nil =>
          have hgrows := grows_buffAdd o run
          rw [vaFormatLoop, Fits]
          refine ⟨⟨fun ⟨o', ho', hlt⟩ => ?_, fun h => ⟨_, rfl, h⟩⟩, fun o' ho' => ?_⟩
          · cases ho'
            exact hlt
          · cases ho'
            exact ⟨hgrows.length, hgrows.filled⟩
      | cons c f =>
          rw [List.length_cons] at hfuel
          rw [vaFormatLoop, Fits]
          rw [Plain] at hplain
          by_cases hpercent : c = 37
          · rw [if_pos hpercent] at hplain ⊢
            rw [if_pos hpercent]
            have hgrows := grows_buffAdd o run
            by_cases hfits : DirectiveFits base (o.buffAdd run) va f
            · have hletter : peek f = 37 ∨ ∀ c ∈ (takeSpec f).2.head?, ¬IsExternal c := by
                by_cases hpeek : peek f = 37
                · exact .inl hpeek
                · rw [if_neg hpeek] at hplain
                  exact .inr hplain.1
              obtain ⟨o', va', hrun, hlength, hfilled⟩ := doPercent_spec hletter hfits
              have hrest : (if peek f = 37 then f.tail else (takeSpec f).2.tail).length ≤ f.length := by
                split
                · rw [List.length_tail]
                  omega
                · have := takeSpec_length f
                  rw [List.length_tail]
                  omega
              have hplain' : Plain fuel (if peek f = 37 then f.tail else (takeSpec f).2.tail) := by
                by_cases hpeek : peek f = 37
                · rwa [if_pos hpeek] at hplain ⊢
                · rw [if_neg hpeek] at hplain ⊢
                  exact hplain.2
              obtain ⟨hiff, hkeep⟩ := @ih o' va' [] _ (by omega) hplain'
              rw [hrun, Option.bind_some]
              refine ⟨hiff.trans ⟨fun h => ⟨hfits, fun r hr => ?_⟩, fun h => h.2 _ rfl⟩,
                fun o₂ ho₂ => ?_⟩
              · cases hr
                exact h
              · obtain ⟨hlen, hfill⟩ := hkeep o₂ ho₂
                exact ⟨hlen.trans (hlength.trans hgrows.length),
                  fun h => hfill (hfilled (hgrows.filled h))⟩
            · rw [doPercent_eq_none hfits, Option.bind_none]
              refine ⟨⟨fun ⟨o', ho', _⟩ => absurd ho' (by simp), fun h => absurd h.1 hfits⟩,
                fun o' ho' => absurd ho' (by simp)⟩
          · rw [if_neg hpercent] at hplain ⊢
            rw [if_neg hpercent]
            exact ih (by omega) hplain

/-- In a buffer of less than 2^31 bytes there are two ways to leave it: a width that
wraps in front of it, and a centred field with room for the larger half of its padding
but not for all of it. -/
theorem padFits_iff {base size i0 l1 : Nat} {fi : FormatInfo} (hsize : size < 2 ^ 31)
    (hi0 : i0 ≤ l1) (hl1 : l1 ≤ size) :
    PadFits base size fi i0 l1 ↔
      0 ≤ fieldEnd base i0 fi.width0 ∧
        ∀ n : Nat, fieldEnd base i0 fi.width0 = l1 + n → fi.justify = 61 →
          n / 2 + n % 2 ≤ size - l1 → n ≤ size - l1 := by
  unfold PadFits
  generalize fieldEnd base i0 fi.width0 = l0
  dsimp only
  by_cases hzero : l0 = i0
  · rw [if_pos hzero]
    refine ⟨fun _ => ⟨by omega, fun n hn _ _ => by omega⟩, fun _ => trivial⟩
  rw [if_neg hzero]
  by_cases hlt : l0 < l1
  · rw [if_pos hlt]
    refine ⟨fun h => ⟨h.1, fun n hn _ _ => by omega⟩, fun h => ⟨h.1, by omega⟩⟩
  rw [if_neg hlt]
  obtain ⟨n, rfl⟩ : ∃ n : Nat, l0 = l1 + n := ⟨(l0 - l1).toNat, by omega⟩
  have hn : ((l1 : Int) + n - l1).toNat = n := by omega
  rw [hn]
  have hhalf : n / 2 ≤ n / 2 + n % 2 := Nat.le_add_right _ _
  constructor
  · intro h
    refine ⟨by omega, fun n' hn' hcentre hroom => ?_⟩
    obtain rfl : n' = n := by omega
    have hpad : padding fi.justify n' = (n' / 2 + n' % 2, n' / 2) := by
      rw [hcentre]
      rfl
    rw [hpad, if_pos hroom, if_pos (by omega)] at h
    omega
  · rintro ⟨-, h⟩
    unfold padding
    split
    · simp only [Nat.zero_le, if_true]
      split <;> omega
    split
    · simp only [Nat.zero_le, if_true]
      split <;> omega
    split
    · next hcentre =>
        have := h n rfl hcentre
        simp only
        split <;> split <;> omega
    · simp only [Nat.zero_le, if_true]
      omega

/-- A format that centres one character in nine. -/
def centred : Text := [37, 61, 57, 99]

theorem plain_centred : Plain (centred.length + 1) centred := by
  refine ⟨fun c hc => ?_, trivial⟩
  have hlast : some 99 = some c := hc
  cases hlast
  decide

theorem fits_centred :
    Fits 4096 (centred.length + 1) (Out.fresh 16) (fun _ => ⟨65, none⟩) [] centred := by
  refine ⟨?_, fun r hr => ?_⟩
  · show PadFits 4096 16 ⟨61, 9, 0, 0, 32⟩ 0 1
    rw [padFits_iff (by decide) (by decide) (by decide)]
    exact ⟨by decide, fun n hn _ _ => by
      have : fieldEnd 4096 0 9 = 9 := by decide
      change fieldEnd 4096 0 9 = _ at hn
      omega⟩
  · obtain ⟨o', hpos, hrun⟩ : ∃ o' : Out, o'.pos = 9 ∧ doPercent 4096 ((Out.fresh 16).buffAdd []) (fun _ => ⟨65, none⟩) [61, 57, 99]
        = some (o', _, []) := ⟨_, rfl, rfl⟩
    rw [hrun] at hr
    cases hr
    show (o'.buffAdd []).pos < 2 ^ 31
    unfold Out.buffAdd
    split
    · show o'.pos + 0 < 2 ^ 31
      omega
    · omega

end Libubox.Format
