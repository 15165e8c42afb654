import Libubox.Json.Node

/-!
# Strings

`parse_string` with its counting and its decoding pass, and
`print_string_ptr`.

The counting pass takes a backslash and the character behind it for one, the
decoding pass jumps over four or six characters at a `\u` escape whatever they
are.
-/

namespace Libubox.Json

/-! ## The source -/

/-- The counting pass: `len`, from the first character behind the quote. -/
def countPass : Text → Option Nat
  | [] => none
  | c :: m =>
      if c = quote ∨ c = 0 then some 0
      else if c = backslash then
        match m with
        | [] => none
        | _ :: m => (countPass m).map (· + 1)
      else (countPass m).map (· + 1)

/-- The value of a hexadecimal digit. -/
def hexValue (c : UInt8) : Option Nat :=
  if 48 ≤ c ∧ c ≤ 57 then some (c.toNat - 48)
  else if 97 ≤ c ∧ c ≤ 102 then some (c.toNat - 87)
  else if 65 ≤ c ∧ c ≤ 70 then some (c.toNat - 55)
  else none

/-- The hexadecimal digits at the front of at most `width` characters. -/
def hexPrefix : Nat → Text → List Nat
  | width + 1, c :: m =>
      match hexValue c with
      | some d => d :: hexPrefix width m
      | none => []
  | _, _ => []

/-- The number written by hexadecimal digits. -/
def hexNat (ds : List Nat) : Nat := ds.foldl (fun n d => n * 16 + d) 0

/-- `%x` of at most `width` characters behind a sign; a leading `0x` is
skipped. -/
def scanHexDigits (width : Nat) (m : Text) : Option Nat :=
  match m with
  | z :: x :: m' =>
      if z = 48 ∧ (x = 120 ∨ x = 88) then some (hexNat (hexPrefix (width - 2) m'))
      else digits
  | _ => digits
where
  digits : Option Nat :=
    if hexPrefix width m = [] then none else some (hexNat (hexPrefix width m))

/-- `sscanf(m, "%4x", &uc)`: the value stored, or `none` if none is.  Memory
that ends here makes the decoding pass read outside it right after. -/
def scanHex4 (m : Text) : Option UInt32 :=
  match skip m with
  | [] => none
  | c :: m' =>
      if c = 45 then (scanHexDigits 3 m').map fun n => -UInt32.ofNat n
      else if c = 43 then (scanHexDigits 3 m').map UInt32.ofNat
      else (scanHexDigits 4 (c :: m')).map UInt32.ofNat

/-- `(uc | 0x80) & 0xBF` stored in a `char`. -/
def trailByte (uc : UInt32) : UInt8 := ((uc ||| 0x80) &&& 0xBF).toUInt8

/-- The bytes written for `uc`, and `uc` after the shifts. -/
def encodeUtf8 (uc : UInt32) : Text × UInt32 :=
  if uc < 0x80 then ([uc.toUInt8], uc)
  else if uc < 0x800 then
    ([((uc >>> 6) ||| 0xC0).toUInt8, trailByte uc], uc >>> 6)
  else if uc < 0x10000 then
    ([((uc >>> 6 >>> 6) ||| 0xE0).toUInt8, trailByte (uc >>> 6), trailByte uc],
      uc >>> 6 >>> 6)
  else
    ([((uc >>> 6 >>> 6 >>> 6) ||| 0xF0).toUInt8, trailByte (uc >>> 6 >>> 6),
        trailByte (uc >>> 6), trailByte uc], uc >>> 6 >>> 6 >>> 6)

/-- The character written for the letter of a short escape. -/
def unescape (c : UInt8) : UInt8 :=
  if c = 98 then 8        -- \b
  else if c = 102 then 12 -- \f
  else if c = 110 then 10 -- \n
  else if c = 114 then 13 -- \r
  else if c = 116 then 9  -- \t
  else c

/-- A half of a surrogate pair that cannot stand first, or no character. -/
def IsDropped (uc : UInt32) : Prop := (0xDC00 ≤ uc ∧ uc ≤ 0xDFFF) ∨ uc = 0

/-- The first half of a surrogate pair. -/
def IsHighHalf (uc : UInt32) : Prop := 0xD800 ≤ uc ∧ uc ≤ 0xDBFF

/-- The second half of a surrogate pair. -/
def IsLowHalf (uc : UInt32) : Prop := 0xDC00 ≤ uc ∧ uc ≤ 0xDFFF

instance (uc : UInt32) : Decidable (IsDropped uc) := inferInstanceAs (Decidable (_ ∨ _))
instance (uc : UInt32) : Decidable (IsHighHalf uc) := inferInstanceAs (Decidable (_ ∧ _))
instance (uc : UInt32) : Decidable (IsLowHalf uc) := inferInstanceAs (Decidable (_ ∧ _))

/-- `0x10000 | ((uc & 0x3FF) << 10) | (uc2 & 0x3FF)`. -/
def joinHalves (uc uc2 : UInt32) : UInt32 :=
  (0x10000 : UInt32) ||| ((uc &&& 0x3FF) <<< (10 : UInt32)) ||| (uc2 &&& 0x3FF)

/-- The state of the decoding pass: `uc` and `uc2`. -/
abbrev Units := UInt32 × UInt32

/-- The bytes of `uc` are written, and the pass goes on at `m`. -/
def encoded (uc uc2 : UInt32) (m : Text) : Text × Units × Text :=
  ((encodeUtf8 uc).1, ((encodeUtf8 uc).2, uc2), m)

/-- The case `'u'` behind the first half `uc` of a surrogate pair. -/
def secondHalf (uc uc2 : UInt32) : Text → Option (Text × Units × Text)
  | [] => none
  | [x] => if x = backslash then none else some ([], (uc, uc2), [x])
  | x :: y :: m =>
      if x ≠ backslash ∨ y ≠ letterU then some ([], (uc, uc2), x :: y :: m)
      else if m.length < 4 then none
      else if IsLowHalf ((scanHex4 m).getD uc2) then
        some (encoded (joinHalves uc ((scanHex4 m).getD uc2)) ((scanHex4 m).getD uc2) (m.drop 4))
      else some ([], (uc, (scanHex4 m).getD uc2), m.drop 4)

/-- The case `'u'` of the decoding pass on the memory behind the letter: the
bytes written, `uc` and `uc2`, and the memory to go on with.  Where a jump
leaves the memory the next read is outside it. -/
def unicodeEscape (u : Units) (m : Text) : Option (Text × Units × Text) :=
  let uc := (scanHex4 m).getD u.1
  if m.length < 4 then none
  else if IsDropped uc then some ([], (uc, u.2), m.drop 4)
  else if IsHighHalf uc then secondHalf uc u.2 (m.drop 4)
  else some (encoded uc u.2 (m.drop 4))

/-- The body of the decoding loop on the memory from `ptr` on. -/
def decodeStep (u : Units) : Text → Option (Text × Units × Text)
  | [] => none
  | c :: m =>
      if c ≠ backslash then some ([c], u, m)
      else
        match m with
        | [] => none
        | e :: m => if e = letterU then unicodeEscape u m else some ([unescape e], u, m)

/-- The decoding loop: the bytes written and the memory from the terminator
on. -/
def decodeLoop : Nat → Units → Text → Option (Text × Text)
  | 0, _, _ => none
  | _ + 1, _, [] => none
  | fuel + 1, u, c :: m =>
      if c = quote ∨ c = 0 then some ([], c :: m)
      else
        (decodeStep u (c :: m)).bind fun r =>
          (decodeLoop fuel r.2.1 r.2.2).map fun out => (r.1 ++ out.1, out.2)

/-- The decoding pass.  Every turn of the loop consumes memory. -/
def decodePass (u : Units) (m : Text) : Option (Text × Text) :=
  decodeLoop (m.length + 1) u m

/-- `parse_string`: the new `valuestring`.  A pass that reads outside the
memory and an output longer than the allocation are faults. -/
def parseString (env : Libc) (m : Text) : Outcome Text :=
  match m with
  | [] => .fault
  | c :: body =>
      if c ≠ quote then .null (c :: body)
      else
        match countPass body, decodePass (env.uninit body) body with
        | some len, some (out, t :: rest) =>
            if len < out.length then .fault
            else if t = quote then .ok out rest
            else .ok out (t :: rest)
        | _, _ => .fault

/-- What `print_string_ptr` writes for one character. -/
def escapeChar (c : UInt8) : Text :=
  if 31 < c ∧ c ≠ quote ∧ c ≠ backslash then [c]
  else if c = backslash then [backslash, backslash]
  else if c = quote then [backslash, quote]
  else if c = 8 then [backslash, 98]
  else if c = 12 then [backslash, 102]
  else if c = 10 then [backslash, 110]
  else if c = 13 then [backslash, 114]
  else if c = 9 then [backslash, 116]
  else [backslash, letterU, 48, 48, hexDigit (c / 16), hexDigit (c % 16)]
where
  /-- `%x` of a number below 16. -/
  hexDigit (d : UInt8) : UInt8 := if d < 10 then 48 + d else 87 + d

/-- `print_string_ptr`. -/
def printStringPtr : Option Text → Text
  | none => []
  | some str => quote :: str.flatMap escapeChar ++ [quote]

/-! ## The loop -/

theorem secondHalf_suffix {uc uc2 : UInt32} {u' : Units} {m m' out : Text}
    (h : secondHalf uc uc2 m = some (out, u', m')) : m' <:+ m := by
  unfold secondHalf at h
  split at h
  · cases h
  · split at h
    · cases h
    · cases h
      exact List.suffix_refl _
  · next x y tail =>
      have htail : tail.drop 4 <:+ x :: y :: tail :=
        ((List.drop_suffix 4 tail).trans (List.suffix_cons y tail)).trans
          (List.suffix_cons x (y :: tail))
      split at h
      · cases h
        exact List.suffix_refl _
      · split at h
        · cases h
        · split at h
          · cases h
            exact htail
          · cases h
            exact htail

theorem unicodeEscape_suffix {u u' : Units} {m m' out : Text}
    (h : unicodeEscape u m = some (out, u', m')) : m' <:+ m := by
  have hdrop : m.drop 4 <:+ m := List.drop_suffix 4 m
  simp only [unicodeEscape] at h
  by_cases hlen : m.length < 4
  · rw [if_pos hlen] at h
    cases h
  · rw [if_neg hlen] at h
    by_cases hdropped : IsDropped ((scanHex4 m).getD u.1)
    · rw [if_pos hdropped] at h
      cases h
      exact hdrop
    · rw [if_neg hdropped] at h
      by_cases hhigh : IsHighHalf ((scanHex4 m).getD u.1)
      · rw [if_pos hhigh] at h
        exact (secondHalf_suffix h).trans hdrop
      · rw [if_neg hhigh] at h
        cases h
        exact hdrop

/-- Every turn of the loop moves the cursor forward. -/
theorem decodeStep_suffix {u u' : Units} {c : UInt8} {m m' out : Text}
    (h : decodeStep u (c :: m) = some (out, u', m')) : m' <:+ m := by
  simp only [decodeStep] at h
  by_cases hc : c ≠ backslash
  · rw [if_pos hc] at h
    cases h
    exact List.suffix_refl _
  · rw [if_neg hc] at h
    cases m with
    | nil => cases h
    | cons e m =>
        by_cases he : e = letterU
        · simp only [if_pos he] at h
          exact (unicodeEscape_suffix h).trans (List.suffix_cons e m)
        · simp only [if_neg he] at h
          cases h
          exact List.suffix_cons e _

theorem decodeLoop_cons (fuel : Nat) (u : Units) (c : UInt8) (m : Text) :
    decodeLoop (fuel + 1) u (c :: m)
      = if c = quote ∨ c = 0 then some ([], c :: m) else
          (decodeStep u (c :: m)).bind fun r =>
            (decodeLoop fuel r.2.1 r.2.2).map fun out => (r.1 ++ out.1, out.2) := rfl

/-- Fuel beyond the length of the memory changes nothing. -/
theorem decodeLoop_fuel {fuel fuel' : Nat} {u : Units} {m : Text}
    (h : m.length < fuel) (h' : m.length < fuel') :
    decodeLoop fuel u m = decodeLoop fuel' u m := by
  induction fuel generalizing fuel' u m with
  | zero => exact absurd h (Nat.not_lt_zero _)
  | succ fuel ih =>
      cases fuel' with
      | zero => exact absurd h' (Nat.not_lt_zero _)
      | succ fuel' =>
          cases m with
          | nil => rfl
          | cons c m =>
              rw [decodeLoop_cons, decodeLoop_cons]
              split
              · rfl
              · cases hstep : decodeStep u (c :: m) with
                | none => rfl
                | some r =>
                    obtain ⟨out, u', m'⟩ := r
                    have hlen := (decodeStep_suffix hstep).length_le
                    rw [List.length_cons] at h h'
                    have hrest := @ih fuel' u' m' (by omega) (by omega)
                    rw [Option.bind_some, Option.bind_some, hrest]

@[simp] theorem decodePass_nil (u : Units) : decodePass u [] = none := rfl

theorem decodePass_stop {u : Units} {c : UInt8} {m : Text} (h : c = quote ∨ c = 0) :
    decodePass u (c :: m) = some ([], c :: m) := by
  rw [decodePass, decodeLoop_cons, if_pos h]

/-- One turn of the loop. -/
theorem decodePass_turn {u : Units} {c : UInt8} {m : Text} (h : ¬(c = quote ∨ c = 0)) :
    decodePass u (c :: m)
      = (decodeStep u (c :: m)).bind fun r =>
          (decodePass r.2.1 r.2.2).map fun out => (r.1 ++ out.1, out.2) := by
  rw [decodePass, decodeLoop_cons, if_neg h]
  cases hstep : decodeStep u (c :: m) with
  | none => rfl
  | some r =>
      obtain ⟨out, u', m'⟩ := r
      have hlen := (decodeStep_suffix hstep).length_le
      have hrest := @decodeLoop_fuel (c :: m).length (m'.length + 1) u' m'
        (by rw [List.length_cons]; omega) (by omega)
      rw [Option.bind_some, Option.bind_some, hrest, decodePass]

/-- The decoding pass stops at a quote or a zero further on in the memory. -/
theorem decodePass_suffix {u : Units} {m out rest : Text}
    (h : decodePass u m = some (out, rest)) :
    ∃ t tail, rest = t :: tail ∧ (t = quote ∨ t = 0) ∧ rest <:+ m := by
  induction hlen : m.length using Nat.strong_induction_on generalizing u m out with
  | _ n ih =>
      cases m with
      | nil => cases h
      | cons c m =>
          by_cases hstop : c = quote ∨ c = 0
          · rw [decodePass_stop hstop] at h
            cases h
            exact ⟨c, m, rfl, hstop, List.suffix_refl _⟩
          · rw [decodePass_turn hstop] at h
            obtain ⟨⟨bytes, u', m'⟩, hstep, h⟩ := Option.bind_eq_some_iff.mp h
            obtain ⟨⟨out', rest'⟩, hrest, h⟩ := Option.map_eq_some_iff.mp h
            cases h
            have hsuf := decodeStep_suffix hstep
            have hlt : m'.length < n := by
              have := hsuf.length_le
              rw [List.length_cons] at hlen
              omega
            obtain ⟨t, tail, hrest', ht, hm'⟩ := ih _ hlt hrest rfl
            exact ⟨t, tail, hrest', ht, (hm'.trans hsuf).trans (List.suffix_cons c m)⟩

end Libubox.Json
