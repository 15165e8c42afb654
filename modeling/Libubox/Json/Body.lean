import Libubox.Json.String

/-!
# The language of string bodies

`Body b out` says that the characters `b` between two quotes denote the bytes
`out`: plain characters, short escapes, and `\u` escapes of four hexadecimal
digits, in UTF-8, with surrogate pairs joined and what is no character
dropped.  Both passes of `parse_string` agree on a body (`Body.countPass`,
`Body.decodePass`), and `print_string_ptr` writes one (`body_escape`).
-/

namespace Libubox.Json

/-! ## Four hexadecimal digits -/

/-- `t` is four hexadecimal digits that write `v`. -/
def Hex4 (t : Text) (v : Nat) : Prop :=
  ∃ a b c d w x y z, t = [a, b, c, d] ∧ hexValue a = some w ∧ hexValue b = some x ∧
    hexValue c = some y ∧ hexValue d = some z ∧ v = ((w * 16 + x) * 16 + y) * 16 + z

theorem hexValue_lt {c : UInt8} {v : Nat} (h : hexValue c = some v) : v < 16 := by
  unfold hexValue at h
  split at h
  · next hc =>
      cases h
      have := UInt8.le_iff_toNat_le.mp hc.2
      change c.toNat ≤ 57 at this
      omega
  · split at h
    · next hc =>
        cases h
        have := UInt8.le_iff_toNat_le.mp hc.2
        change c.toNat ≤ 102 at this
        omega
    · split at h
      · next hc =>
          cases h
          have := UInt8.le_iff_toNat_le.mp hc.2
          change c.toNat ≤ 70 at this
          omega
      · cases h

theorem Hex4.lt {t : Text} {v : Nat} (h : Hex4 t v) : v < 65536 := by
  obtain ⟨a, b, c, d, w, x, y, z, -, hw, hx, hy, hz, rfl⟩ := h
  have := hexValue_lt hw
  have := hexValue_lt hx
  have := hexValue_lt hy
  have := hexValue_lt hz
  omega

theorem Hex4.length {t : Text} {v : Nat} (h : Hex4 t v) : t.length = 4 := by
  obtain ⟨a, b, c, d, w, x, y, z, rfl, -⟩ := h
  rfl

/-- A hexadecimal digit is none of the characters the passes look for. -/
theorem ne_of_hexValue {c : UInt8} {v : Nat} (h : hexValue c = some v) {e : UInt8}
    (he : hexValue e = none) : c ≠ e := by
  intro hce
  rw [hce, he] at h
  cases h

theorem isSpace_of_hexValue {c : UInt8} {v : Nat} (h : hexValue c = some v) :
    isSpace c = false := by
  unfold hexValue at h
  unfold isSpace
  grind

/-- `sscanf` reads four hexadecimal digits. -/
theorem scanHex4_hex4 {t : Text} {v : Nat} (h : Hex4 t v) (m : Text) :
    scanHex4 (t ++ m) = some (UInt32.ofNat v) := by
  obtain ⟨a, b, c, d, w, x, y, z, rfl, hw, hx, hy, hz, rfl⟩ := h
  have hskip : skip ([a, b, c, d] ++ m) = a :: b :: c :: d :: m := by
    simp [skip, isSpace_of_hexValue hw]
  have hminus : a ≠ 45 := ne_of_hexValue hw (by decide)
  have hplus : a ≠ 43 := ne_of_hexValue hw (by decide)
  have hbase : ¬(a = 48 ∧ (b = 120 ∨ b = 88)) := by
    rintro ⟨-, hb | hb⟩
    · exact ne_of_hexValue hx (by decide) hb
    · exact ne_of_hexValue hx (by decide) hb
  have hdigits : hexPrefix 4 (a :: b :: c :: d :: m) = [w, x, y, z] := by
    simp [hexPrefix, hw, hx, hy, hz]
  rw [scanHex4, hskip]
  simp [hminus, hplus, scanHexDigits, hbase, scanHexDigits.digits, hdigits, hexNat]

/-! ## UTF-8 -/

theorem toNat_trailByte (uc : UInt32) : (trailByte uc).toNat = uc.toNat % 64 + 128 := by
  have htable : ∀ q < 4, ∀ r < 64, ((64 * q + r) ||| 128) &&& 191 = r + 128 := by decide
  have hbyte := UInt8.toNat_lt uc.toUInt8
  have hlow := htable (uc.toUInt8.toNat / 64) (by omega) (uc.toUInt8.toNat % 64) (by omega)
  rw [Nat.div_add_mod] at hlow
  rw [trailByte, UInt32.toUInt8_and, UInt32.toUInt8_or, UInt8.toNat_and, UInt8.toNat_or]
  change ((uc.toUInt8).toNat ||| 128) &&& 191 = _
  rw [hlow, UInt32.toNat_toUInt8]
  omega

theorem trailByte_eq (uc : UInt32) : trailByte uc = UInt8.ofNat (uc.toNat % 64 + 128) := by
  rw [← toNat_trailByte, UInt8.ofNat_toNat]

theorem toNat_shift6 (uc : UInt32) : (uc >>> 6).toNat = uc.toNat / 64 := by
  simp [Nat.shiftRight_eq_div_pow]

/-- The first byte of a sequence: `uc | firstByteMark[len]`. -/
theorem leadByte_eq (uc : UInt32) :
    (uc.toNat < 32 → (uc ||| 0xC0).toUInt8 = UInt8.ofNat (uc.toNat % 32 + 192)) ∧
    (uc.toNat < 16 → (uc ||| 0xE0).toUInt8 = UInt8.ofNat (uc.toNat % 16 + 224)) ∧
    (uc.toNat < 8 → (uc ||| 0xF0).toUInt8 = UInt8.ofNat (uc.toNat % 8 + 240)) := by
  have htable : (∀ n < 32, n ||| 192 = n % 32 + 192) ∧ (∀ n < 16, n ||| 224 = n % 16 + 224) ∧
      (∀ n < 8, n ||| 240 = n % 8 + 240) := by decide
  have hbyte (mark : UInt32) : (uc ||| mark).toUInt8 = UInt8.ofNat (uc.toNat ||| mark.toNat) := by
    rw [← UInt32.toNat_or, UInt8.ofNat_uInt32ToNat]
  refine ⟨fun h => ?_, fun h => ?_, fun h => ?_⟩
  · rw [hbyte]
    exact congrArg UInt8.ofNat (htable.1 _ h)
  · rw [hbyte]
    exact congrArg UInt8.ofNat (htable.2.1 _ h)
  · rw [hbyte]
    exact congrArg UInt8.ofNat (htable.2.2 _ h)

/-- The decoding pass writes characters in UTF-8. -/
theorem encodeUtf8_char (c : Char) : (encodeUtf8 c.val).1 = String.utf8EncodeChar c := by
  have hvalid : c.val.toNat < 0x110000 := by
    rcases c.valid with h | h
    · change c.val.toNat < 0xD800 at h
      omega
    · exact h.2
  have hlt (k : UInt32) : c.val < k ↔ c.val.toNat < k.toNat := UInt32.lt_iff_toNat_lt
  have hshift1 : (c.val >>> 6).toNat = c.val.toNat / 64 := toNat_shift6 _
  have hshift2 : (c.val >>> 6 >>> 6).toNat = c.val.toNat / 4096 := by
    rw [toNat_shift6, hshift1]
    omega
  have hshift3 : (c.val >>> 6 >>> 6 >>> 6).toNat = c.val.toNat / 262144 := by
    rw [toNat_shift6, hshift2]
    omega
  unfold encodeUtf8 String.utf8EncodeChar
  by_cases h1 : c.val.toNat ≤ 0x7f
  · rw [if_pos ((hlt 0x80).mpr (Nat.lt_succ_of_le h1))]
    simp only [if_pos h1, UInt8.ofNat_uInt32ToNat]
  · rw [if_neg fun h => h1 (Nat.le_of_lt_succ ((hlt 0x80).mp h))]
    by_cases h2 : c.val.toNat ≤ 0x7ff
    · rw [if_pos ((hlt 0x800).mpr (Nat.lt_succ_of_le h2))]
      have hlead := (leadByte_eq (c.val >>> 6)).1 (by omega)
      simp only [if_neg h1, if_pos h2, hlead, trailByte_eq, hshift1]
    · rw [if_neg fun h => h2 (Nat.le_of_lt_succ ((hlt 0x800).mp h))]
      by_cases h3 : c.val.toNat ≤ 0xffff
      · rw [if_pos ((hlt 0x10000).mpr (Nat.lt_succ_of_le h3))]
        have hlead := (leadByte_eq (c.val >>> 6 >>> 6)).2.1 (by omega)
        simp only [if_neg h1, if_neg h2, if_pos h3, hlead, trailByte_eq, hshift1, hshift2]
      · rw [if_neg fun h => h3 (Nat.le_of_lt_succ ((hlt 0x10000).mp h))]
        have hlead := (leadByte_eq (c.val >>> 6 >>> 6 >>> 6)).2.2 (by omega)
        simp only [if_neg h1, if_neg h2, if_neg h3, hlead, trailByte_eq, hshift1, hshift2,
          hshift3]

/-! ## Bodies -/

/-- A number that is no first half of a pair and not dropped. -/
def IsScalar (v : Nat) : Prop := v ≠ 0 ∧ (v < 0xD800 ∨ 0xDFFF < v)

/-- A first half of a surrogate pair. -/
def IsHigh (v : Nat) : Prop := 0xD800 ≤ v ∧ v ≤ 0xDBFF

/-- A second half of a surrogate pair. -/
def IsLow (v : Nat) : Prop := 0xDC00 ≤ v ∧ v ≤ 0xDFFF

/-- Another `\u` follows. -/
def StartsUnicode (b : Text) : Prop := ∃ tail, b = backslash :: letterU :: tail

/-- The code point of a surrogate pair. -/
def codePoint (high low : Nat) : Nat := 0x10000 + (high - 0xD800) * 0x400 + (low - 0xDC00)

/-- What `parse_string` takes for the code point: the leading bit is put in by
`|`, not by `+`. -/
def joined (high low : Nat) : Nat := 0x10000 ||| ((high % 0x400) <<< 10 ||| low % 0x400)

/-- The characters `b` stand for the bytes `out`, the halves of surrogate pairs
put together by `join`. -/
inductive Body (join : Nat → Nat → Nat) : Text → Text → Prop where
  | nil : Body join [] []
  | plain {c : UInt8} {b out : Text} (hc : c ≠ quote ∧ c ≠ backslash ∧ c ≠ 0)
      (tail : Body join b out) : Body join (c :: b) (c :: out)
  | short {e : UInt8} {b out : Text} (he : e ≠ letterU ∧ e ≠ 0)
      (tail : Body join b out) : Body join (backslash :: e :: b) (unescape e :: out)
  | unicode {t : Text} {v : Nat} {b out : Text} (hex : Hex4 t v) (hv : IsScalar v)
      (tail : Body join b out) :
      Body join (backslash :: letterU :: (t ++ b)) (String.utf8EncodeChar (Char.ofNat v) ++ out)
  | dropped {t : Text} {v : Nat} {b out : Text} (hex : Hex4 t v) (hv : v = 0 ∨ IsLow v)
      (tail : Body join b out) : Body join (backslash :: letterU :: (t ++ b)) out
  | pair {t t' : Text} {v v' : Nat} {b out : Text} (hex : Hex4 t v) (hv : IsHigh v)
      (hex' : Hex4 t' v') (hv' : IsLow v') (tail : Body join b out) :
      Body join (backslash :: letterU :: (t ++ backslash :: letterU :: (t' ++ b)))
        (String.utf8EncodeChar (Char.ofNat (join v v')) ++ out)
  | alone {t : Text} {v : Nat} {b out : Text} (hex : Hex4 t v) (hv : IsHigh v)
      (hb : ¬ StartsUnicode b) (tail : Body join b out) :
      Body join (backslash :: letterU :: (t ++ b)) out
  | broken {t t' : Text} {v v' : Nat} {b out : Text} (hex : Hex4 t v) (hv : IsHigh v)
      (hex' : Hex4 t' v') (hv' : ¬ IsLow v') (tail : Body join b out) :
      Body join (backslash :: letterU :: (t ++ backslash :: letterU :: (t' ++ b))) out

/-! ### The counting pass -/

theorem countPass_stop {t : UInt8} (ht : t = quote ∨ t = 0) (m : Text) :
    countPass (t :: m) = some 0 := by
  rw [countPass.eq_def]
  simp only [if_pos ht]

theorem countPass_plain {c : UInt8} (hc : c ≠ quote ∧ c ≠ backslash ∧ c ≠ 0) (m : Text) :
    countPass (c :: m) = (countPass m).map (· + 1) := by
  rw [countPass.eq_def]
  simp only [if_neg (show ¬(c = quote ∨ c = 0) by tauto), if_neg hc.2.1]

theorem countPass_escape (e : UInt8) (m : Text) :
    countPass (backslash :: e :: m) = (countPass m).map (· + 1) := by
  rw [countPass.eq_def]
  simp only [if_neg (show ¬(backslash = quote ∨ backslash = 0) by decide), if_true]

theorem countPass_hex4 {t : Text} {v : Nat} (h : Hex4 t v) (m : Text) :
    countPass (t ++ m) = (countPass m).map (· + 4) := by
  obtain ⟨a, b, c, d, w, x, y, z, rfl, hw, hx, hy, hz, -⟩ := h
  have hplain {c : UInt8} {v : Nat} (hc : hexValue c = some v) :
      c ≠ quote ∧ c ≠ backslash ∧ c ≠ 0 :=
    ⟨ne_of_hexValue hc (by decide), ne_of_hexValue hc (by decide),
      ne_of_hexValue hc (by decide)⟩
  simp only [List.cons_append, List.nil_append]
  rw [countPass_plain (hplain hw), countPass_plain (hplain hx), countPass_plain (hplain hy),
    countPass_plain (hplain hz)]
  cases countPass m <;> rfl

theorem countPass_unicode {t : Text} {v : Nat} (h : Hex4 t v) (m : Text) :
    countPass (backslash :: letterU :: (t ++ m)) = (countPass m).map (· + 5) := by
  rw [countPass_escape, countPass_hex4 h]
  cases countPass m <;> rfl

theorem length_utf8EncodeChar_le (c : Char) : (String.utf8EncodeChar c).length ≤ 4 := by
  rw [String.length_utf8EncodeChar]
  exact Char.utf8Size_le_four c

/-- The counting pass finds room for what a body denotes. -/
theorem Body.countPass {join : Nat → Nat → Nat} {b out : Text} (h : Body join b out)
    {t : UInt8} (ht : t = quote ∨ t = 0) (rest : Text) :
    ∃ len, Json.countPass (b ++ t :: rest) = some len ∧ out.length ≤ len := by
  induction h with
  | nil => exact ⟨0, countPass_stop ht rest, le_rfl⟩
  | plain hc _ ih =>
      obtain ⟨len, hlen, hle⟩ := ih
      refine ⟨len + 1, ?_, Nat.succ_le_succ hle⟩
      rw [List.cons_append, countPass_plain hc, hlen, Option.map_some]
  | short _ _ ih =>
      obtain ⟨len, hlen, hle⟩ := ih
      refine ⟨len + 1, ?_, Nat.succ_le_succ hle⟩
      rw [List.cons_append, List.cons_append, countPass_escape, hlen, Option.map_some]
  | @unicode t v b out hex _ _ ih =>
      obtain ⟨len, hlen, hle⟩ := ih
      have hfour := length_utf8EncodeChar_le (Char.ofNat v)
      refine ⟨len + 5, ?_, by rw [List.length_append]; omega⟩
      simp only [List.cons_append, List.append_assoc]
      rw [countPass_unicode hex, hlen, Option.map_some]
  | dropped hex _ _ ih =>
      obtain ⟨len, hlen, hle⟩ := ih
      refine ⟨len + 5, ?_, by omega⟩
      simp only [List.cons_append, List.append_assoc]
      rw [countPass_unicode hex, hlen, Option.map_some]
  | @pair t t' v v' b out hex _ hex' _ _ ih =>
      obtain ⟨len, hlen, hle⟩ := ih
      have hfour := length_utf8EncodeChar_le (Char.ofNat (join v v'))
      refine ⟨len + 5 + 5, ?_, by rw [List.length_append]; omega⟩
      simp only [List.cons_append, List.append_assoc]
      rw [countPass_unicode hex, countPass_unicode hex', hlen, Option.map_some, Option.map_some]
  | alone hex _ _ _ ih =>
      obtain ⟨len, hlen, hle⟩ := ih
      refine ⟨len + 5, ?_, by omega⟩
      simp only [List.cons_append, List.append_assoc]
      rw [countPass_unicode hex, hlen, Option.map_some]
  | broken hex _ hex' _ _ ih =>
      obtain ⟨len, hlen, hle⟩ := ih
      refine ⟨len + 5 + 5, ?_, by omega⟩
      simp only [List.cons_append, List.append_assoc]
      rw [countPass_unicode hex, countPass_unicode hex', hlen, Option.map_some, Option.map_some]

/-! ### The decoding pass -/

theorem decodePass_plain {c : UInt8} (hc : c ≠ quote ∧ c ≠ backslash ∧ c ≠ 0) (u : Units)
    (m : Text) :
    decodePass u (c :: m) = (decodePass u m).map fun r => (c :: r.1, r.2) := by
  rw [decodePass_turn (by tauto), decodeStep.eq_def]
  simp only [if_pos hc.2.1, Option.bind_some, List.singleton_append]

theorem decodePass_short {e : UInt8} (he : e ≠ letterU) (u : Units) (m : Text) :
    decodePass u (backslash :: e :: m)
      = (decodePass u m).map fun r => (unescape e :: r.1, r.2) := by
  rw [decodePass_turn (by decide), decodeStep]
  simp only [ne_eq, not_true_eq_false, if_false, if_neg he, Option.bind_some,
    List.singleton_append]

theorem decodePass_unicode (u : Units) (m : Text) :
    decodePass u (backslash :: letterU :: m)
      = (unicodeEscape u m).bind fun r =>
          (decodePass r.2.1 r.2.2).map fun out => (r.1 ++ out.1, out.2) := by
  rw [decodePass_turn (by decide), decodeStep]
  simp only [ne_eq, not_true_eq_false, if_false, if_true]

/-- The unit of four digits, and its class. -/
theorem unit_of_lt {v : Nat} (h : v < 65536) :
    (UInt32.ofNat v).toNat = v ∧ (IsDropped (UInt32.ofNat v) ↔ v = 0 ∨ IsLow v) ∧
      (IsHighHalf (UInt32.ofNat v) ↔ IsHigh v) ∧ (IsLowHalf (UInt32.ofNat v) ↔ IsLow v) := by
  have hval : (UInt32.ofNat v).toNat = v := by
    rw [UInt32.toNat_ofNat']
    omega
  have hle (k : UInt32) : k ≤ UInt32.ofNat v ↔ k.toNat ≤ v := by
    rw [UInt32.le_iff_toNat_le, hval]
  have hge (k : UInt32) : UInt32.ofNat v ≤ k ↔ v ≤ k.toNat := by
    rw [UInt32.le_iff_toNat_le, hval]
  have hzero : UInt32.ofNat v = 0 ↔ v = 0 := by
    rw [← UInt32.toNat_inj, hval]
    rfl
  have hlow : IsLowHalf (UInt32.ofNat v) ↔ IsLow v := and_congr (hle _) (hge _)
  refine ⟨hval, ?_, and_congr (hle _) (hge _), hlow⟩
  exact (or_congr hlow hzero).trans or_comm

theorem unicodeEscape_hex4 {t : Text} {v : Nat} (h : Hex4 t v) (u : Units) (m : Text) :
    unicodeEscape u (t ++ m)
      = if IsDropped (UInt32.ofNat v) then some ([], (UInt32.ofNat v, u.2), m)
        else if IsHighHalf (UInt32.ofNat v) then secondHalf (UInt32.ofNat v) u.2 m
        else some (encoded (UInt32.ofNat v) u.2 m) := by
  have hlen : ¬(t ++ m).length < 4 := by
    rw [List.length_append, h.length]
    omega
  have hdrop : (t ++ m).drop 4 = m := by rw [← h.length, List.drop_left]
  simp only [unicodeEscape, if_neg hlen, hdrop, scanHex4_hex4 h, Option.getD_some]

theorem unicodeEscape_scalar {t : Text} {v : Nat} (h : Hex4 t v) (hv : IsScalar v) (u : Units)
    (m : Text) : unicodeEscape u (t ++ m) = some (encoded (UInt32.ofNat v) u.2 m) := by
  have hunit := unit_of_lt h.lt
  unfold IsScalar at hv
  unfold IsLow IsHigh at hunit
  rw [unicodeEscape_hex4 h, if_neg (by rw [hunit.2.1]; omega),
    if_neg (by rw [hunit.2.2.1]; omega)]

theorem unicodeEscape_dropped {t : Text} {v : Nat} (h : Hex4 t v) (hv : v = 0 ∨ IsLow v)
    (u : Units) (m : Text) : unicodeEscape u (t ++ m) = some ([], (UInt32.ofNat v, u.2), m) := by
  rw [unicodeEscape_hex4 h, if_pos ((unit_of_lt h.lt).2.1.mpr hv)]

theorem unicodeEscape_high {t : Text} {v : Nat} (h : Hex4 t v) (hv : IsHigh v) (u : Units)
    (m : Text) : unicodeEscape u (t ++ m) = secondHalf (UInt32.ofNat v) u.2 m := by
  have hunit := unit_of_lt h.lt
  have hkept : ¬IsDropped (UInt32.ofNat v) := by
    rw [hunit.2.1]
    unfold IsHigh at hv
    unfold IsLow
    omega
  rw [unicodeEscape_hex4 h, if_neg hkept, if_pos (hunit.2.2.1.mpr hv)]

theorem secondHalf_hex4 {t : Text} {v : Nat} (h : Hex4 t v) (uc uc2 : UInt32) (m : Text) :
    secondHalf uc uc2 (backslash :: letterU :: (t ++ m))
      = if IsLowHalf (UInt32.ofNat v) then
          some (encoded (joinHalves uc (UInt32.ofNat v)) (UInt32.ofNat v) m)
        else some ([], (uc, UInt32.ofNat v), m) := by
  have hlen : ¬(t ++ m).length < 4 := by
    rw [List.length_append, h.length]
    omega
  have hdrop : (t ++ m).drop 4 = m := by rw [← h.length, List.drop_left]
  simp only [secondHalf, ne_eq, not_true_eq_false, or_self, if_false, if_neg hlen, hdrop,
    scanHex4_hex4 h, Option.getD_some]

/-- A first half in front of anything else is left alone. -/
theorem secondHalf_alone {uc uc2 : UInt32} {b rest : Text} {t : UInt8}
    (hb : ¬ StartsUnicode b) (hne : b ≠ [backslash]) (ht : t = quote ∨ t = 0) :
    secondHalf uc uc2 (b ++ t :: rest) = some ([], (uc, uc2), b ++ t :: rest) := by
  have hbackslash : t ≠ backslash := by
    rintro rfl
    exact absurd ht (by decide)
  match b, hb, hne with
  | [], _, _ =>
      cases rest with
      | nil => simp only [List.nil_append, secondHalf, if_neg hbackslash]
      | cons y rest => simp only [List.nil_append, secondHalf, if_pos (Or.inl hbackslash)]
  | [x], _, hne =>
      have hx : x ≠ backslash := fun h => hne (by rw [h])
      simp only [List.cons_append, List.nil_append, secondHalf, if_pos (Or.inl hx)]
  | x :: y :: b, hb, _ =>
      have hxy : x ≠ backslash ∨ y ≠ letterU := by
        by_contra hcon
        push Not at hcon
        exact hb ⟨b, by rw [hcon.1, hcon.2]⟩
      simp only [List.cons_append, secondHalf, if_pos hxy]

theorem Body.ne_backslash {join : Nat → Nat → Nat} {b out : Text} (h : Body join b out) :
    b ≠ [backslash] := by
  cases h with
  | plain hc _ =>
      intro heq
      exact hc.2.1 (List.cons.inj heq).1
  | _ => simp

theorem encodeUtf8_ofNat {v : Nat} (h : v.isValidChar) :
    (encodeUtf8 (UInt32.ofNat v)).1 = String.utf8EncodeChar (Char.ofNat v) := by
  rw [← encodeUtf8_char]
  have hval : (Char.ofNat v).val = UInt32.ofNat v := by
    rw [← UInt32.toNat_inj, UInt32.toNat_ofNat']
    have hlt : v < 0x110000 := by
      rcases h with h | h
      · omega
      · exact h.2
    rw [Nat.mod_eq_of_lt (by omega), Char.ofNat, dif_pos h]
    rfl
  rw [hval]

theorem isValidChar_of_isScalar {v : Nat} (h : IsScalar v) (hlt : v < 65536) :
    v.isValidChar := by
  rcases h.2 with h | h
  · exact Or.inl h
  · exact Or.inr ⟨h, by omega⟩

/-- The code point put together by `|` is a character of a higher plane. -/
theorem joined_bounds (v v' : Nat) : 0x10000 ≤ joined v v' ∧ joined v v' < 0x100000 := by
  refine ⟨Nat.left_le_or, ?_⟩
  have hhigh : (v % 0x400) <<< 10 < 2 ^ 20 := by
    rw [Nat.shiftLeft_eq]
    omega
  have hlow : v' % 0x400 < 2 ^ 20 := by omega
  exact Nat.or_lt_two_pow (by decide) (Nat.or_lt_two_pow hhigh hlow)

theorem isValidChar_joined (v v' : Nat) : (joined v v').isValidChar := by
  have := joined_bounds v v'
  exact Or.inr ⟨by omega, by omega⟩

theorem joinHalves_ofNat {v v' : Nat} (h : v < 65536) (h' : v' < 65536) :
    joinHalves (UInt32.ofNat v) (UInt32.ofNat v') = UInt32.ofNat (joined v v') := by
  have hbounds := joined_bounds v v'
  have hmask (n : Nat) : n &&& 1023 = n % 1024 := Nat.and_two_pow_sub_one_eq_mod n 10
  have hshift : ((v % 1024) <<< 10) % 2 ^ 32 = (v % 1024) <<< 10 := by
    rw [Nat.shiftLeft_eq]
    omega
  rw [← UInt32.toNat_inj, joinHalves, UInt32.toNat_or, UInt32.toNat_or, UInt32.toNat_shiftLeft,
    UInt32.toNat_and, UInt32.toNat_and, (unit_of_lt h).1, (unit_of_lt h').1,
    UInt32.toNat_ofNat', Nat.mod_eq_of_lt (show joined v v' < 2 ^ 32 by omega)]
  change 0x10000 ||| (v &&& 1023) <<< 10 % 2 ^ 32 ||| v' &&& 1023 = _
  rw [hmask, hmask, hshift, Nat.or_assoc]
  rfl

/-- The decoding pass writes what a body denotes and stops behind it. -/
theorem Body.decodePass {b out : Text} (h : Body joined b out) {t : UInt8}
    (ht : t = quote ∨ t = 0) (rest : Text) (u : Units) :
    Json.decodePass u (b ++ t :: rest) = some (out, t :: rest) := by
  induction h generalizing u with
  | nil => exact decodePass_stop ht
  | plain hc _ ih => rw [List.cons_append, decodePass_plain hc, ih, Option.map_some]
  | short he _ ih =>
      rw [List.cons_append, List.cons_append, decodePass_short he.1, ih, Option.map_some]
  | unicode hex hv _ ih =>
      simp only [List.cons_append, List.append_assoc]
      rw [decodePass_unicode, unicodeEscape_scalar hex hv, Option.bind_some, encoded,
        encodeUtf8_ofNat (isValidChar_of_isScalar hv hex.lt), ih, Option.map_some]
  | dropped hex hv _ ih =>
      simp only [List.cons_append, List.append_assoc]
      rw [decodePass_unicode, unicodeEscape_dropped hex hv, Option.bind_some, ih,
        Option.map_some, List.nil_append]
  | pair hex hv hex' hv' _ ih =>
      simp only [List.cons_append, List.append_assoc]
      rw [decodePass_unicode, unicodeEscape_high hex hv, secondHalf_hex4 hex',
        if_pos ((unit_of_lt hex'.lt).2.2.2.mpr hv'), Option.bind_some, encoded,
        joinHalves_ofNat hex.lt hex'.lt, encodeUtf8_ofNat (isValidChar_joined _ _), ih,
        Option.map_some]
  | alone hex hv hb tail ih =>
      simp only [List.cons_append, List.append_assoc]
      rw [decodePass_unicode, unicodeEscape_high hex hv,
        secondHalf_alone hb tail.ne_backslash ht, Option.bind_some, ih, Option.map_some,
        List.nil_append]
  | broken hex hv hex' hv' _ ih =>
      simp only [List.cons_append, List.append_assoc]
      rw [decodePass_unicode, unicodeEscape_high hex hv, secondHalf_hex4 hex',
        if_neg (fun hlow => hv' ((unit_of_lt hex'.lt).2.2.2.mp hlow)), Option.bind_some, ih,
        Option.map_some, List.nil_append]

/-- A closed string token is read to its end. -/
theorem Body.parseString {b out : Text} (h : Body joined b out) (env : Libc) (rest : Text) :
    Json.parseString env (quote :: (b ++ quote :: rest)) = .ok out rest := by
  obtain ⟨len, hlen, hle⟩ := h.countPass (Or.inl rfl) rest
  simp only [Json.parseString, ne_eq, not_true_eq_false, if_false, hlen,
    h.decodePass (Or.inl rfl), if_neg (not_lt.mpr hle), if_true]

/-- A string token cut between two characters is taken for complete. -/
theorem Body.parseString_cut {b out : Text} (h : Body joined b out) (env : Libc) (rest : Text) :
    Json.parseString env (quote :: (b ++ 0 :: rest)) = .ok out (0 :: rest) := by
  obtain ⟨len, hlen, hle⟩ := h.countPass (Or.inr rfl) rest
  simp only [Json.parseString, ne_eq, not_true_eq_false, if_false, hlen,
    h.decodePass (Or.inr rfl), if_neg (not_lt.mpr hle),
    if_neg (show (0 : UInt8) ≠ quote by decide)]

/-- What a body denotes depends on `join` only through its surrogate pairs. -/
theorem Body.exists_join {join join' : Nat → Nat → Nat} {b out : Text} (h : Body join b out) :
    ∃ out', Body join' b out' := by
  induction h with
  | nil => exact ⟨_, .nil⟩
  | plain hc _ ih => exact ih.imp' _ fun _ ih => .plain hc ih
  | short he _ ih => exact ih.imp' _ fun _ ih => .short he ih
  | unicode hex hv _ ih => exact ih.imp' _ fun _ ih => .unicode hex hv ih
  | dropped hex hv _ ih => exact ih.imp' _ fun _ ih => .dropped hex hv ih
  | pair hex hv hex' hv' _ ih => exact ih.imp' _ fun _ ih => .pair hex hv hex' hv' ih
  | alone hex hv hb _ ih => exact ih.imp' _ fun _ ih => .alone hex hv hb ih
  | broken hex hv hex' hv' _ ih => exact ih.imp' _ fun _ ih => .broken hex hv hex' hv' ih

/-! ## Printed strings -/

theorem hexValue_hexDigit {d : UInt8} (h : d < 16) :
    hexValue (escapeChar.hexDigit d) = some d.toNat := by
  have htable : ∀ n < 16, hexValue (escapeChar.hexDigit (UInt8.ofNat n)) = some n := by decide
  have := htable d.toNat (UInt8.lt_iff_toNat_lt.mp h)
  rwa [UInt8.ofNat_toNat] at this

/-- A control character as a `\u` escape. -/
theorem hex4_control {c : UInt8} (h : c ≤ 31) :
    Hex4 [48, 48, escapeChar.hexDigit (c / 16), escapeChar.hexDigit (c % 16)] c.toNat := by
  have hc : c.toNat ≤ 31 := UInt8.le_iff_toNat_le.mp h
  have hdiv : (c / 16).toNat = c.toNat / 16 := UInt8.toNat_div c 16
  have hmod : (c % 16).toNat = c.toNat % 16 := UInt8.toNat_mod c 16
  have hsmall (d : UInt8) (hd : d.toNat < 16) : d < 16 := UInt8.lt_iff_toNat_lt.mpr hd
  refine ⟨_, _, _, _, 0, 0, (c / 16).toNat, (c % 16).toNat, rfl, by decide, by decide,
    hexValue_hexDigit (hsmall _ (by omega)), hexValue_hexDigit (hsmall _ (by omega)), ?_⟩
  rw [hdiv, hmod]
  omega

theorem isScalar_control {c : UInt8} (hc : c ≠ 0) (h : c ≤ 31) : IsScalar c.toNat := by
  have hle : c.toNat ≤ 31 := UInt8.le_iff_toNat_le.mp h
  refine ⟨fun hzero => hc ?_, by omega⟩
  rw [← UInt8.toNat_inj, hzero]
  rfl

theorem utf8EncodeChar_control {c : UInt8} (h : c ≤ 31) :
    String.utf8EncodeChar (Char.ofNat c.toNat) = [c] := by
  have htable : ∀ n < 32, String.utf8EncodeChar (Char.ofNat n) = [UInt8.ofNat n] := by decide
  have hle : c.toNat ≤ 31 := UInt8.le_iff_toNat_le.mp h
  rw [htable c.toNat (by omega), UInt8.ofNat_toNat]

/-- What is printed for a character denotes that character. -/
theorem body_escapeChar {join : Nat → Nat → Nat} {c : UInt8} (hc : c ≠ 0) {b out : Text}
    (tail : Body join b out) : Body join (escapeChar c ++ b) (c :: out) := by
  unfold escapeChar
  by_cases hplain : 31 < c ∧ c ≠ quote ∧ c ≠ backslash
  · rw [if_pos hplain]
    exact .plain ⟨hplain.2.1, hplain.2.2, hc⟩ tail
  · rw [if_neg hplain]
    by_cases h92 : c = backslash
    · rw [if_pos h92, h92]
      exact .short (by decide) tail
    · rw [if_neg h92]
      by_cases h34 : c = quote
      · rw [if_pos h34, h34]
        exact .short (by decide) tail
      · rw [if_neg h34]
        split
        · next h => rw [h]; exact @Body.short join 98 b out (by decide) tail
        · split
          · next h => rw [h]; exact @Body.short join 102 b out (by decide) tail
          · split
            · next h => rw [h]; exact @Body.short join 110 b out (by decide) tail
            · split
              · next h => rw [h]; exact @Body.short join 114 b out (by decide) tail
              · split
                · next h => rw [h]; exact @Body.short join 116 b out (by decide) tail
                · have hcontrol : c ≤ 31 := by
                    have : ¬31 < c := fun h => hplain ⟨h, h34, h92⟩
                    exact UInt8.not_lt.mp this
                  have htext := @Body.unicode join _ _ b out (hex4_control hcontrol)
                    (isScalar_control hc hcontrol) tail
                  rw [utf8EncodeChar_control hcontrol] at htext
                  exact htext

/-- The text printed for a C string denotes it. -/
theorem body_escape {join : Nat → Nat → Nat} {str : Text} (h : 0 ∉ str) :
    Body join (str.flatMap escapeChar) str := by
  induction str with
  | nil => exact .nil
  | cons c str ih =>
      rw [List.mem_cons, not_or] at h
      rw [List.flatMap_cons]
      exact body_escapeChar (Ne.symm h.1) (ih h.2)

end Libubox.Json
