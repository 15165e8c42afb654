import Libubox.Json.String

/-!
# The parser

`parse_value` and the functions below it.  The cursor runs over memory: the text,
its terminating zero and whatever lies behind.  The parser gives up on memory that
it leaves (`Outcome.fault`).

Every call consumes memory, so that the fuel of `jsonParseStream` is never used
up (`jsonParseStream_fuel`).
-/

namespace Libubox.Json

open Binary64 Decimal

/-! ## Numbers -/

/-- A loop over digits: the digits, and the memory from the first other character
on. -/
def takeDigits : Text → Option (Text × Text)
  | [] => none
  | c :: m => if IsDigit c then (takeDigits m).map fun r => (c :: r.1, r.2) else some ([], c :: m)

/-- `n = (n * 10.0) + (**num - '0')` over digits. -/
def accumulate (n : Double) (ds : Text) : Double :=
  ds.foldl (fun n d => (n.mul (.finite 10)).add (.ofInt (digitValue d))) n

/-- `n64 = (n64 * 10) + (**num - '0')` over digits. -/
def accumulate64 (n : Int) (ds : Text) : Int :=
  ds.foldl (fun n d => wrap64 (n * 10 + digitValue d)) n

/-- `subscale = (subscale * 10) + (**num - '0')` over digits. -/
def accumulate32 (n : Int) (ds : Text) : Int :=
  ds.foldl (fun n d => wrap32 (n * 10 + digitValue d)) n

/-- The parts of a number: whether there is a minus sign, the digits in front of
the point but for a leading zero, those behind it, and the exponent if there is
one. -/
structure NumberParts where
  negative : Bool
  whole : Text
  fraction : Text
  exponent : Option (Bool × Text)
  deriving DecidableEq

/-- The fractional part. -/
def takeFraction (m : Text) : Option (Text × Text) :=
  m.head?.bind fun c =>
    if c = 46 then
      m.tail.head?.bind fun d => if IsDigit d then takeDigits m.tail else some ([], m)
    else some ([], m)

/-- The exponent. -/
def takeExponent (m : Text) : Option (Option (Bool × Text) × Text) :=
  m.head?.bind fun c =>
    if c = 101 ∨ c = 69 then
      m.tail.head?.bind fun s =>
        if s = 43 then (takeDigits m.tail.tail).map fun r => (some (false, r.1), r.2)
        else if s = minus then (takeDigits m.tail.tail).map fun r => (some (true, r.1), r.2)
        else (takeDigits m.tail).map fun r => (some (false, r.1), r.2)
    else some (none, m)

/-- The whole part; one zero in front of it is left out. -/
def takeWhole (m : Text) : Option (Text × Text) :=
  m.head?.bind fun c =>
    let m := if c = 48 then m.tail else m
    m.head?.bind fun d => if 49 ≤ d ∧ d ≤ 57 then takeDigits m else some ([], m)

/-- The parts of the number at the cursor. -/
def takeNumber (m : Text) : Option (NumberParts × Text) :=
  m.head?.bind fun c =>
    let negative := decide (c = minus)
    (takeWhole (if negative then m.tail else m)).bind fun (whole, m) =>
      (takeFraction m).bind fun (fraction, m) =>
        (takeExponent m).map fun (exponent, m) => (⟨negative, whole, fraction, exponent⟩, m)

/-- The item that `parse_number` makes of the parts of a number. -/
def numberItem (env : Libc) (p : NumberParts) : Item :=
  let sign : Double := if p.negative then .finite (-1) else .finite 1
  let n := accumulate (accumulate (.finite 0) p.whole) p.fraction
  let n64 :=
    if p.fraction ≠ [] ∨ p.exponent.isSome then 0 else accumulate64 0 p.whole
  let scale : Int := -p.fraction.length
  let subscale : Int :=
    match p.exponent with
    | none => 0
    | some (negative, ds) => accumulate32 0 ds * if negative then -1 else 1
  let n := (sign.mul n).mul (env.pow10 (scale + subscale))
  { newItem with
    type := .number
    valuedouble := n
    valueint := if n64 ≠ 0 then (sign.mul (.ofInt n64)).toInt64 else n.toInt64 }

/-- `parse_number`. -/
def parseNumber (env : Libc) (m : Text) : Outcome Json :=
  match takeNumber m with
  | none => .fault
  | some (p, rest) => .ok (node (numberItem env p) nil nil) rest

/-! ## Values -/

/-- `stream_cmp`: whether the cursor stands at `str`, and where it comes to.  It
runs on behind both strings if they end together. -/
def streamCmp : Text → Text → Option (Bool × Text)
  | [], _ => none
  | c :: m, [] => if c = 0 then none else some (true, c :: m)
  | c :: m, s :: str => if c = s then streamCmp m str else some (false, c :: m)

/-- An item without a value of its own. -/
def typed (type : JsonType) (valueint : Int) : Json :=
  node { newItem with type, valueint } nil nil

/-- `parse_value` up to its `switch`: the keyword that was matched. -/
def parseKeyword (m : Text) : Option (Option Json × Text) :=
  (streamCmp m [110, 117, 108, 108]).bind fun (found, m) =>
    if found then some (some (typed .null 0), m)
    else
      (streamCmp m [102, 97, 108, 115, 101]).bind fun (found, m) =>
        if found then some (some (typed .false 0), m)
        else
          (streamCmp m [116, 114, 117, 101]).bind fun (found, m) =>
            if found then some (some (typed .true 1), m) else some (none, m)

/-- The next character that is no white space. -/
def nextChar (m : Text) : Outcome UInt8 :=
  match skip m with
  | [] => .fault
  | c :: m => .ok c m

mutual

/-- `parse_value`. -/
def parseValue (env : Libc) : Nat → Text → Outcome Json
  | 0, _ => .fault
  | fuel + 1, m =>
      match parseKeyword m with
      | none => .fault
      | some (some item, m) => .ok item m
      | some (none, []) => .fault
      | some (none, c :: m) =>
          if c = quote then
            (parseString env (c :: m)).bind fun out rest =>
              .ok (node { newItem with type := .string, valuestring := some out } nil nil) rest
          else if c = minus ∨ IsDigit c then parseNumber env (c :: m)
          else if c = openBracket then parseArray env fuel m
          else if c = openBrace then parseObject env fuel m
          else .null (c :: m)

/-- `parse_array`, behind the bracket. -/
def parseArray (env : Libc) : Nat → Text → Outcome Json
  | 0, _ => .fault
  | fuel + 1, m =>
      (nextChar m).bind fun c m =>
        if c = closeBracket then .ok (node { newItem with type := .array } nil nil) m
        else
          (parseElements env fuel (c :: m)).bind fun child rest =>
            .ok (node { newItem with type := .array } child nil) rest

/-- The elements of an array, up to behind its closing bracket. -/
def parseElements (env : Libc) : Nat → Text → Outcome Json
  | 0, _ => .fault
  | fuel + 1, m =>
      (parseValue env fuel m).bind fun child m =>
        (nextChar m).bind fun c m =>
          if c = comma then
            (nextChar m).bind fun c m =>
              if c = closeBracket then .ok child m
              else
                (parseElements env fuel (c :: m)).bind fun next rest =>
                  .ok (linkNext next child) rest
          else if c = closeBracket then .ok child m
          else .null (c :: m)

/-- `parse_object`, behind the brace. -/
def parseObject (env : Libc) : Nat → Text → Outcome Json
  | 0, _ => .fault
  | fuel + 1, m =>
      (nextChar m).bind fun c m =>
        if c = closeBrace then .ok (node { newItem with type := .object } nil nil) m
        else
          (parseMembers env fuel (c :: m)).bind fun child rest =>
            .ok (node { newItem with type := .object } child nil) rest

/-- The members of an object, up to behind its closing brace. -/
def parseMembers (env : Libc) : Nat → Text → Outcome Json
  | 0, _ => .fault
  | fuel + 1, m =>
      (parseString env m).bind fun key m =>
        (nextChar m).bind fun c m =>
          if c ≠ colon then .null (c :: m)
          else
            (parseValue env fuel (skip m)).bind fun child m =>
              (nextChar m).bind fun c m =>
                if c = comma then
                  (nextChar m).bind fun c m =>
                    if c = closeBrace then .ok (setKey key child) m
                    else
                      (parseMembers env fuel (c :: m)).bind fun next rest =>
                        .ok (linkNext next (setKey key child)) rest
                else if c = closeBrace then .ok (setKey key child) m
                else .null (c :: m)

end

/-- `json_parse_stream`, with the end pointer. -/
def jsonParseStream (env : Libc) (m : Text) : Outcome Json :=
  parseValue env (3 * m.length + 1) (skip m)

/-- `json_parse`. -/
def jsonParse (env : Libc) (m : Text) : Outcome Json := jsonParseStream env m

/-! ## The cursor moves on -/

/-- Where a call leaves the cursor, if it returns a result. -/
def Outcome.Within {α : Type} (n : Nat) : Outcome α → Prop
  | .ok _ rest => rest.length ≤ n
  | _ => True

theorem Outcome.Within.bind {α β : Type} {n k : Nat} {x : Outcome α} {f : α → Text → Outcome β}
    (hx : x.Within n) (hf : ∀ a rest, rest.length ≤ n → (f a rest).Within k) :
    (x.bind f).Within k := by
  cases x with
  | ok a rest => exact hf a rest hx
  | null rest => trivial
  | fault => trivial

theorem Outcome.Within.mono {α : Type} {n k : Nat} {x : Outcome α} (hx : x.Within n)
    (hle : n ≤ k) : x.Within k := by
  cases x with
  | ok a rest => exact hx.trans hle
  | null rest => trivial
  | fault => trivial

theorem skip_length (m : Text) : (skip m).length ≤ m.length :=
  (List.dropWhile_suffix _).length_le

theorem takeDigits_length {m ds rest : Text} (h : takeDigits m = some (ds, rest)) :
    rest.length ≤ m.length := by
  induction m generalizing ds with
  | nil => cases h
  | cons c m ih =>
      rw [takeDigits] at h
      split at h
      · obtain ⟨r, hr, heq⟩ := Option.map_eq_some_iff.mp h
        cases heq
        exact (ih hr).trans (Nat.le_succ _)
      · cases h
        exact Nat.le_refl _

theorem tail_length_le (m : Text) : m.tail.length ≤ m.length := by
  rw [List.length_tail]
  omega

theorem takeWhole_length {m ds rest : Text} (h : takeWhole m = some (ds, rest)) :
    rest.length ≤ m.length := by
  unfold takeWhole at h
  obtain ⟨c, -, h⟩ := Option.bind_eq_some_iff.mp h
  obtain ⟨d, -, h⟩ := Option.bind_eq_some_iff.mp h
  have hle : (if c = 48 then m.tail else m).length ≤ m.length := by
    split
    · exact tail_length_le m
    · exact Nat.le_refl _
  split at h
  · exact (takeDigits_length h).trans hle
  · cases h
    exact hle

theorem takeFraction_length {m ds rest : Text} (h : takeFraction m = some (ds, rest)) :
    rest.length ≤ m.length := by
  unfold takeFraction at h
  obtain ⟨c, -, h⟩ := Option.bind_eq_some_iff.mp h
  split at h
  · obtain ⟨d, -, h⟩ := Option.bind_eq_some_iff.mp h
    split at h
    · exact (takeDigits_length h).trans (tail_length_le m)
    · cases h
      exact Nat.le_refl _
  · cases h
    exact Nat.le_refl _

theorem takeExponent_length {m rest : Text} {e : Option (Bool × Text)}
    (h : takeExponent m = some (e, rest)) : rest.length ≤ m.length := by
  have htail : m.tail.tail.length ≤ m.length := (tail_length_le _).trans (tail_length_le _)
  unfold takeExponent at h
  obtain ⟨c, -, h⟩ := Option.bind_eq_some_iff.mp h
  split at h
  · obtain ⟨d, -, h⟩ := Option.bind_eq_some_iff.mp h
    split_ifs at h <;> obtain ⟨r, hr, heq⟩ := Option.map_eq_some_iff.mp h <;> cases heq
    · exact (takeDigits_length hr).trans htail
    · exact (takeDigits_length hr).trans htail
    · exact (takeDigits_length hr).trans (tail_length_le m)
  · cases h
    exact Nat.le_refl _

theorem takeNumber_length {m rest : Text} {p : NumberParts} (h : takeNumber m = some (p, rest)) :
    rest.length ≤ m.length := by
  unfold takeNumber at h
  obtain ⟨c, -, h⟩ := Option.bind_eq_some_iff.mp h
  obtain ⟨⟨whole, m₁⟩, hwhole, h⟩ := Option.bind_eq_some_iff.mp h
  obtain ⟨⟨fraction, m₂⟩, hfraction, h⟩ := Option.bind_eq_some_iff.mp h
  obtain ⟨⟨exponent, m₃⟩, hexponent, heq⟩ := Option.map_eq_some_iff.mp h
  cases heq
  have hle : (if decide (c = minus) then m.tail else m).length ≤ m.length := by
    split
    · exact tail_length_le m
    · exact Nat.le_refl _
  exact ((takeExponent_length hexponent).trans (takeFraction_length hfraction)).trans
    ((takeWhole_length hwhole).trans hle)

theorem parseNumber_within (env : Libc) (m : Text) : (parseNumber env m).Within m.length := by
  unfold parseNumber
  split
  · trivial
  · next h => exact takeNumber_length h

theorem parseString_within (env : Libc) (m : Text) : (parseString env m).Within m.length := by
  unfold parseString
  split
  · trivial
  next c body =>
  split
  · trivial
  split
  · next len out t rest _ hpass =>
      obtain ⟨_, _, _, _, hsuffix⟩ := decodePass_suffix hpass
      have hle := hsuffix.length_le
      rw [List.length_cons] at hle
      split
      · trivial
      · split <;> simp only [Outcome.Within, List.length_cons] <;> omega
  · trivial

theorem streamCmp_length {m str rest : Text} {found : Bool}
    (h : streamCmp m str = some (found, rest)) : rest.length ≤ m.length := by
  induction m generalizing str with
  | nil => cases h
  | cons c m ih =>
      cases str with
      | nil =>
          rw [streamCmp] at h
          split at h <;> cases h
          exact Nat.le_refl _
      | cons s str =>
          rw [streamCmp] at h
          split at h
          · exact (ih h).trans (Nat.le_succ _)
          · cases h
            exact Nat.le_refl _

theorem parseKeyword_length {m rest : Text} {item : Option Json}
    (h : parseKeyword m = some (item, rest)) : rest.length ≤ m.length := by
  unfold parseKeyword at h
  obtain ⟨⟨found, m₁⟩, hnull, h⟩ := Option.bind_eq_some_iff.mp h
  have hle₁ := streamCmp_length hnull
  simp only at h
  split at h
  · cases h
    exact hle₁
  obtain ⟨⟨found, m₂⟩, hfalse, h⟩ := Option.bind_eq_some_iff.mp h
  have hle₂ := (streamCmp_length hfalse).trans hle₁
  simp only at h
  split at h
  · cases h
    exact hle₂
  obtain ⟨⟨found, m₃⟩, htrue, h⟩ := Option.bind_eq_some_iff.mp h
  have hle₃ := (streamCmp_length htrue).trans hle₂
  simp only at h
  split at h <;> cases h <;> exact hle₃

theorem nextChar_length {m rest : Text} {c : UInt8} (h : nextChar m = .ok c rest) :
    rest.length < m.length := by
  have hle := skip_length m
  unfold nextChar at h
  split at h
  · cases h
  · next hskip =>
      cases h
      rw [hskip, List.length_cons] at hle
      exact hle

theorem nextChar_bind_within {α : Type} {m : Text} {n : Nat} {f : UInt8 → Text → Outcome α}
    (hm : m.length ≤ n) (hf : ∀ c rest, rest.length < n → (f c rest).Within n) :
    ((nextChar m).bind f).Within n := by
  cases hnext : nextChar m with
  | ok c rest => exact hf c rest ((nextChar_length hnext).trans_le hm)
  | null rest => trivial
  | fault => trivial

/-- The functions that call one another, in one bundle: no call moves the cursor
back. -/
theorem parse_within (env : Libc) (fuel : Nat) :
    (∀ m, (parseValue env fuel m).Within m.length) ∧
    (∀ m, (parseArray env fuel m).Within m.length) ∧
    (∀ m, (parseElements env fuel m).Within m.length) ∧
    (∀ m, (parseObject env fuel m).Within m.length) ∧
    ∀ m, (parseMembers env fuel m).Within m.length := by
  induction fuel with
  | zero => exact ⟨fun _ => trivial, fun _ => trivial, fun _ => trivial, fun _ => trivial,
      fun _ => trivial⟩
  | succ fuel ih =>
      obtain ⟨hvalue, harray, helements, hobject, hmembers⟩ := ih
      refine ⟨?_, ?_, ?_, ?_, ?_⟩ <;> intro m
      · rw [parseValue]
        split
        · trivial
        · next hkeyword => exact parseKeyword_length hkeyword
        · trivial
        · next c rest hkeyword =>
            have hle := parseKeyword_length hkeyword
            have hlt : rest.length ≤ m.length := (Nat.le_succ _).trans hle
            split_ifs
            · exact ((parseString_within env _).mono hle).bind fun out rest h => h
            · exact (parseNumber_within env _).mono hle
            · exact (harray rest).mono hlt
            · exact (hobject rest).mono hlt
            · trivial
      · rw [parseArray]
        refine nextChar_bind_within (Nat.le_refl _) fun c rest hlt => ?_
        split
        · exact hlt.le
        · exact ((helements _).mono hlt).bind fun child rest h => h
      · rw [parseElements]
        refine (hvalue m).bind fun child rest hle => nextChar_bind_within hle fun c rest hlt => ?_
        split_ifs
        · refine nextChar_bind_within hlt.le fun c rest hlt => ?_
          split
          · exact hlt.le
          · exact ((helements _).mono hlt).bind fun next rest h => h
        · exact hlt.le
        · trivial
      · rw [parseObject]
        refine nextChar_bind_within (Nat.le_refl _) fun c rest hlt => ?_
        split
        · exact hlt.le
        · exact ((hmembers _).mono hlt).bind fun child rest h => h
      · rw [parseMembers]
        refine (parseString_within env m).bind fun key rest hle =>
          nextChar_bind_within hle fun c rest hlt => ?_
        split
        · trivial
        refine ((hvalue _).mono ((skip_length rest).trans hlt.le)).bind fun child rest hle =>
          nextChar_bind_within hle fun c rest hlt => ?_
        split_ifs
        · refine nextChar_bind_within hlt.le fun c rest hlt => ?_
          split
          · exact hlt.le
          · exact ((hmembers _).mono hlt).bind fun next rest h => h
        · exact hlt.le
        · trivial

/-! ## The fuel lasts -/

theorem Outcome.Within.bind_congr {α β : Type} {n : Nat} {x : Outcome α}
    {f g : α → Text → Outcome β} (hx : x.Within n)
    (hfg : ∀ a rest, rest.length ≤ n → f a rest = g a rest) : x.bind f = x.bind g := by
  cases x with
  | ok a rest => exact hfg a rest hx
  | null rest => rfl
  | fault => rfl

theorem nextChar_bind_congr {α : Type} {m : Text} {f g : UInt8 → Text → Outcome α}
    (hfg : ∀ c rest, rest.length < m.length → f c rest = g c rest) :
    (nextChar m).bind f = (nextChar m).bind g := by
  cases hnext : nextChar m with
  | ok c rest => exact hfg c rest (nextChar_length hnext)
  | null rest => rfl
  | fault => rfl

/-- Three units for each character that is left are enough, and more are not
used. -/
theorem parse_fuel (env : Libc) (fuel : Nat) :
    (∀ m fuel', 3 * m.length + 1 ≤ fuel → 3 * m.length + 1 ≤ fuel' →
      parseValue env fuel m = parseValue env fuel' m) ∧
    (∀ m fuel', 3 * m.length + 3 ≤ fuel → 3 * m.length + 3 ≤ fuel' →
      parseArray env fuel m = parseArray env fuel' m) ∧
    (∀ m fuel', 3 * m.length + 2 ≤ fuel → 3 * m.length + 2 ≤ fuel' →
      parseElements env fuel m = parseElements env fuel' m) ∧
    (∀ m fuel', 3 * m.length + 3 ≤ fuel → 3 * m.length + 3 ≤ fuel' →
      parseObject env fuel m = parseObject env fuel' m) ∧
    ∀ m fuel', 3 * m.length + 2 ≤ fuel → 3 * m.length + 2 ≤ fuel' →
      parseMembers env fuel m = parseMembers env fuel' m := by
  induction fuel with
  | zero => refine ⟨?_, ?_, ?_, ?_, ?_⟩ <;> intros <;> omega
  | succ fuel ih =>
      obtain ⟨hvalue, harray, helements, hobject, hmembers⟩ := ih
      refine ⟨?_, ?_, ?_, ?_, ?_⟩ <;> intro m fuel' hfuel hfuel' <;>
        obtain ⟨fuel', rfl⟩ : ∃ k, fuel' = k + 1 := ⟨fuel' - 1, by omega⟩
      · rw [parseValue, parseValue]
        cases hkeyword : parseKeyword m with
        | none => rfl
        | some r =>
            obtain ⟨item, rest⟩ := r
            have hle := parseKeyword_length hkeyword
            cases item with
            | some item => rfl
            | none =>
                cases rest with
                | nil => rfl
                | cons c rest =>
                    rw [List.length_cons] at hle
                    simp only [harray rest fuel' (by omega) (by omega),
                      hobject rest fuel' (by omega) (by omega)]
      · rw [parseArray, parseArray]
        refine nextChar_bind_congr fun c rest hlt => ?_
        rw [helements (c :: rest) fuel' (by rw [List.length_cons]; omega)
          (by rw [List.length_cons]; omega)]
      · rw [parseElements, parseElements, hvalue m fuel' (by omega) (by omega)]
        refine ((parse_within env fuel').1 m).bind_congr fun child rest hle =>
          nextChar_bind_congr fun c rest hlt => ?_
        split_ifs
        · refine nextChar_bind_congr fun c rest hlt' => ?_
          rw [helements (c :: rest) fuel' (by rw [List.length_cons]; omega)
            (by rw [List.length_cons]; omega)]
        · rfl
        · rfl
      · rw [parseObject, parseObject]
        refine nextChar_bind_congr fun c rest hlt => ?_
        rw [hmembers (c :: rest) fuel' (by rw [List.length_cons]; omega)
          (by rw [List.length_cons]; omega)]
      · rw [parseMembers, parseMembers]
        refine (parseString_within env m).bind_congr fun key rest hle =>
          nextChar_bind_congr fun c rest hlt => ?_
        split
        · rfl
        have hskip := skip_length rest
        rw [hvalue (skip rest) fuel' (by omega) (by omega)]
        refine ((parse_within env fuel').1 _).bind_congr fun child rest hle =>
          nextChar_bind_congr fun c rest hlt => ?_
        split_ifs
        · refine nextChar_bind_congr fun c rest hlt' => ?_
          rw [hmembers (c :: rest) fuel' (by rw [List.length_cons]; omega)
            (by rw [List.length_cons]; omega)]
        · rfl
        · rfl

/-- The fuel of `jsonParseStream` is no limit. -/
theorem jsonParseStream_fuel (env : Libc) (m : Text) {fuel : Nat} (h : 3 * m.length + 1 ≤ fuel) :
    parseValue env fuel (skip m) = jsonParseStream env m := by
  have hle := skip_length m
  exact (parse_fuel env fuel).1 (skip m) _ (by omega) (by omega)

/-! ## Results -/

theorem parseKeyword_ne_nil {m rest : Text} {item : Json}
    (h : parseKeyword m = some (some item, rest)) : item ≠ .nil := by
  unfold parseKeyword at h
  obtain ⟨⟨found, m₁⟩, -, h⟩ := Option.bind_eq_some_iff.mp h
  simp only at h
  split at h
  · cases h
    exact Json.noConfusion
  obtain ⟨⟨found, m₂⟩, -, h⟩ := Option.bind_eq_some_iff.mp h
  simp only at h
  split at h
  · cases h
    exact Json.noConfusion
  obtain ⟨⟨found, m₃⟩, -, h⟩ := Option.bind_eq_some_iff.mp h
  simp only at h
  split at h <;> cases h
  exact Json.noConfusion

theorem Outcome.exists_of_bind {α β : Type} {x : Outcome α} {f : α → Text → Outcome β} {b : β}
    {rest : Text} (h : x.bind f = .ok b rest) : ∃ a m, x = .ok a m ∧ f a m = .ok b rest := by
  cases x with
  | ok a m => exact ⟨a, m, rfl, h⟩
  | null m => cases h
  | fault => cases h

/-- A value that was parsed is a node. -/
theorem parseValue_ne_nil {env : Libc} {fuel : Nat} {m rest : Text} {v : Json}
    (h : parseValue env fuel m = .ok v rest) : v ≠ .nil := by
  have harray : ∀ fuel m, parseArray env fuel m = .ok v rest → v ≠ .nil := by
    intro fuel m h
    cases fuel with
    | zero => cases h
    | succ fuel =>
        rw [parseArray] at h
        obtain ⟨c, m', -, h⟩ := Outcome.exists_of_bind h
        split at h
        · cases h
          exact Json.noConfusion
        · obtain ⟨child, m'', -, h⟩ := Outcome.exists_of_bind h
          cases h
          exact Json.noConfusion
  have hobject : ∀ fuel m, parseObject env fuel m = .ok v rest → v ≠ .nil := by
    intro fuel m h
    cases fuel with
    | zero => cases h
    | succ fuel =>
        rw [parseObject] at h
        obtain ⟨c, m', -, h⟩ := Outcome.exists_of_bind h
        split at h
        · cases h
          exact Json.noConfusion
        · obtain ⟨child, m'', -, h⟩ := Outcome.exists_of_bind h
          cases h
          exact Json.noConfusion
  cases fuel with
  | zero => cases h
  | succ fuel =>
      rw [parseValue] at h
      split at h
      · cases h
      · next hkeyword =>
          cases h
          exact parseKeyword_ne_nil hkeyword
      · cases h
      · split_ifs at h
        · obtain ⟨out, m', -, h⟩ := Outcome.exists_of_bind h
          cases h
          exact Json.noConfusion
        · unfold parseNumber at h
          split at h
          · cases h
          · cases h
            exact Json.noConfusion
        · exact harray _ _ h
        · exact hobject _ _ h

/-- What a call returns, if it returns a result. -/
def Outcome.Returns {α : Type} (P : α → Prop) : Outcome α → Prop
  | .ok a _ => P a
  | _ => True

theorem Outcome.Returns.bind {α β : Type} {P : α → Prop} {Q : β → Prop} {x : Outcome α}
    {f : α → Text → Outcome β} (hx : x.Returns P) (hf : ∀ a rest, P a → (f a rest).Returns Q) :
    (x.bind f).Returns Q := by
  cases x with
  | ok a rest => exact hf a rest hx
  | null rest => trivial
  | fault => trivial

theorem Outcome.returns_true {α : Type} (x : Outcome α) : x.Returns fun _ => True := by
  cases x <;> trivial

/-- The strings of a tree have values. -/
def Valued : Json → Prop
  | nil => True
  | node item child next =>
      (item.type = .string → item.valuestring ≠ none) ∧ Valued child ∧ Valued next

theorem Valued.linkNext {next child : Json} (hnext : Valued next) (hchild : Valued child) :
    Valued (linkNext next child) := by
  cases child with
  | nil => trivial
  | node item child _ => exact ⟨hchild.1, hchild.2.1, hnext⟩

theorem Valued.setKey {child : Json} (h : Valued child) (key : Text) :
    Valued (setKey key child) := by
  cases child with
  | nil => trivial
  | node item child next => exact h

theorem parseKeyword_valued {m rest : Text} {item : Json}
    (h : parseKeyword m = some (some item, rest)) : Valued item := by
  have htyped {type : JsonType} (htype : type ≠ .string) (k : Int) : Valued (typed type k) :=
    ⟨fun h => absurd h htype, trivial, trivial⟩
  unfold parseKeyword at h
  obtain ⟨⟨found, m₁⟩, -, h⟩ := Option.bind_eq_some_iff.mp h
  simp only at h
  split at h
  · cases h
    exact htyped (by decide) _
  obtain ⟨⟨found, m₂⟩, -, h⟩ := Option.bind_eq_some_iff.mp h
  simp only at h
  split at h
  · cases h
    exact htyped (by decide) _
  obtain ⟨⟨found, m₃⟩, -, h⟩ := Option.bind_eq_some_iff.mp h
  simp only at h
  split at h <;> cases h
  exact htyped (by decide) _

/-- Parsed strings have values. -/
theorem parse_valued (env : Libc) (fuel : Nat) :
    (∀ m, (parseValue env fuel m).Returns Valued) ∧
    (∀ m, (parseArray env fuel m).Returns Valued) ∧
    (∀ m, (parseElements env fuel m).Returns Valued) ∧
    (∀ m, (parseObject env fuel m).Returns Valued) ∧
    ∀ m, (parseMembers env fuel m).Returns Valued := by
  induction fuel with
  | zero => exact ⟨fun _ => trivial, fun _ => trivial, fun _ => trivial, fun _ => trivial,
      fun _ => trivial⟩
  | succ fuel ih =>
      obtain ⟨hvalue, harray, helements, hobject, hmembers⟩ := ih
      have hchar {P : Json → Prop} {f : UInt8 → Text → Outcome Json} {m : Text}
          (hf : ∀ c rest, (f c rest).Returns P) : ((nextChar m).bind f).Returns P :=
        (Outcome.returns_true _).bind fun c rest _ => hf c rest
      refine ⟨?_, ?_, ?_, ?_, ?_⟩ <;> intro m
      · rw [parseValue]
        split
        · trivial
        · next hkeyword => exact parseKeyword_valued hkeyword
        · trivial
        · split_ifs
          · apply (Outcome.returns_true _).bind
            intro out rest _
            exact ⟨fun _ => Option.some_ne_none out, trivial, trivial⟩
          · unfold parseNumber
            split
            · trivial
            · exact ⟨fun h => JsonType.noConfusion h, trivial, trivial⟩
          · exact harray _
          · exact hobject _
          · trivial
      · rw [parseArray]
        apply hchar
        intro c rest
        split_ifs
        · exact ⟨fun h => JsonType.noConfusion h, trivial, trivial⟩
        · apply (helements _).bind
          intro child rest hchild
          exact ⟨fun h => JsonType.noConfusion h, hchild, trivial⟩
      · rw [parseElements]
        apply (hvalue _).bind
        intro child rest hchild
        apply hchar
        intro c rest
        split_ifs
        · apply hchar
          intro c rest
          split_ifs
          · exact hchild
          · apply (helements _).bind
            intro next rest hnext
            exact hnext.linkNext hchild
        · exact hchild
        · trivial
      · rw [parseObject]
        apply hchar
        intro c rest
        split_ifs
        · exact ⟨fun h => JsonType.noConfusion h, trivial, trivial⟩
        · apply (hmembers _).bind
          intro child rest hchild
          exact ⟨fun h => JsonType.noConfusion h, hchild, trivial⟩
      · rw [parseMembers]
        apply (Outcome.returns_true _).bind
        intro key rest _
        apply hchar
        intro c rest
        split_ifs
        · trivial
        · apply (hvalue _).bind
          intro child rest hchild
          apply hchar
          intro c rest
          split_ifs
          · apply hchar
            intro c rest
            split_ifs
            · exact hchild.setKey key
            · apply (hmembers _).bind
              intro next rest hnext
              exact hnext.linkNext (hchild.setKey key)
          · exact hchild.setKey key
          · trivial

theorem jsonParseStream_valued {env : Libc} {m rest : Text} {root : Json}
    (h : jsonParseStream env m = .ok root rest) : Valued root := by
  have hvalued := (parse_valued env (3 * m.length + 1)).1 (skip m)
  rw [← jsonParseStream, h] at hvalued
  exact hvalued

end Libubox.Json
