import Libubox.Json.Body
import Libubox.Json.Parse

/-!
# JSON texts

The grammar of JSON and the value of a text, independent of what the parser
accepts.  `Reads p m rest` says that the text `m` starts with `p`, behind which
`rest` is left; a text is read in one way only (`Reads.unique`), so that it has
at most one value (`IsJson.unique`).

Strings are byte strings.  A `\u` escape stands for the bytes of its code point
in UTF-8, a pair of surrogates for that of the pair, and half of a pair alone for
the three bytes that would encode it.
-/

namespace Libubox.Json

open Decimal

/-! ## Trees and values -/

/-- What a string is written with: characters that stand for a byte, and `\u`
escapes. -/
inductive CharUnit
  | byte (c : UInt8)
  | code (v : Nat)

/-- What a text says, token by token. -/
inductive Tree
  | null
  | bool (b : Bool)
  | number (p : NumberParts)
  | string (us : List CharUnit)
  | array (vs : List Tree)
  | object (ms : List (List CharUnit × Tree))

/-- A JSON value; an object keeps the order of its members. -/
inductive Value
  | null
  | bool (b : Bool)
  | number (q : ℚ)
  | string (s : Text)
  | array (vs : List Value)
  | object (ms : List (Text × Value))

instance (v : Nat) : Decidable (IsHigh v) := inferInstanceAs (Decidable (_ ∧ _))
instance (v : Nat) : Decidable (IsLow v) := inferInstanceAs (Decidable (_ ∧ _))

/-- A code point in UTF-8. -/
def codeBytes (v : Nat) : Text :=
  if v.isValidChar then String.utf8EncodeChar (Char.ofNat v)
  else [UInt8.ofNat (224 + v / 4096), UInt8.ofNat (128 + v / 64 % 64), UInt8.ofNat (128 + v % 64)]

/-- The string that is written with `us`. -/
def unitsValue : List CharUnit → Text
  | [] => []
  | .byte c :: us => c :: unitsValue us
  | .code h :: .code l :: us =>
      if IsHigh h ∧ IsLow l then codeBytes (codePoint h l) ++ unitsValue us
      else codeBytes h ++ unitsValue (.code l :: us)
  | .code v :: us => codeBytes v ++ unitsValue us

/-- The number that is written with `p`. -/
def NumberParts.value (p : NumberParts) : ℚ :=
  let n : ℚ := readFrom 0 (p.whole ++ p.fraction)
  let e : Int :=
    match p.exponent with
    | none => 0
    | some (negative, ds) => if negative then -(readFrom 0 ds : Int) else readFrom 0 ds
  (if p.negative then -n else n) * 10 ^ (e - p.fraction.length)

mutual

def Tree.value : Tree → Value
  | .null => .null
  | .bool b => .bool b
  | .number p => .number p.value
  | .string us => .string (unitsValue us)
  | .array vs => .array (elementsValue vs)
  | .object ms => .object (membersValue ms)

def elementsValue : List Tree → List Value
  | [] => []
  | v :: vs => v.value :: elementsValue vs

def membersValue : List (List CharUnit × Tree) → List (Text × Value)
  | [] => []
  | (k, v) :: ms => (unitsValue k, v.value) :: membersValue ms

end

/-! ## Tokens -/

/-- White space between tokens. -/
def skipWs (m : Text) : Text := m.dropWhile fun c => c = 32 || c = 9 || c = 10 || c = 13

/-- The characters of numbers. -/
def IsNumberChar (c : UInt8) : Prop := IsDigit c ∨ c = 43 ∨ c = minus ∨ c = 46 ∨ c = 101 ∨ c = 69

instance (c : UInt8) : Decidable (IsNumberChar c) :=
  inferInstanceAs (Decidable (_ ∨ _ ∨ _ ∨ _ ∨ _ ∨ _))

/-- A text behind a number. -/
def Ends (m : Text) : Prop := ∀ c ∈ m.head?, ¬ IsNumberChar c

/-- `e` writes the exponent of a number. -/
def ExponentText (e : Text) : Option (Bool × Text) → Prop
  | none => e = []
  | some (negative, ds) => ∃ letter sign, e = letter :: (sign ++ ds) ∧ (letter = 101 ∨ letter = 69) ∧
      (if negative then sign = [minus] else sign = [] ∨ sign = [43]) ∧ ds ≠ [] ∧
        ∀ d ∈ ds, IsDigit d

/-- `t` writes the number with the parts `p`: no zero in front of other digits, and
a digit on each side of a point. -/
structure NumberText (t : Text) (p : NumberParts) : Prop where
  whole : ∀ d ∈ p.whole, IsDigit d
  leading : ∀ d ∈ p.whole.head?, d ≠ 48
  fraction : ∀ d ∈ p.fraction, IsDigit d
  text : ∃ e, ExponentText e p.exponent ∧
    t = (if p.negative then [minus] else []) ++ ((if p.whole = [] then [48] else p.whole) ++
      ((if p.fraction = [] then [] else 46 :: p.fraction) ++ e))

/-- The letters of short escapes. -/
def IsEscape (e : UInt8) : Prop :=
  e = quote ∨ e = backslash ∨ e = 47 ∨ e = 98 ∨ e = 102 ∨ e = 110 ∨ e = 114 ∨ e = 116

instance (e : UInt8) : Decidable (IsEscape e) :=
  inferInstanceAs (Decidable (_ ∨ _ ∨ _ ∨ _ ∨ _ ∨ _ ∨ _ ∨ _))

/-- The characters of a string, from behind its quote to behind the closing one. -/
inductive Chars : Text → List CharUnit → Text → Prop
  | close (rest : Text) : Chars (quote :: rest) [] rest
  | plain {c : UInt8} {m rest : Text} {us : List CharUnit} (hc : 32 ≤ c ∧ c ≠ quote ∧ c ≠ backslash)
      (tail : Chars m us rest) : Chars (c :: m) (.byte c :: us) rest
  | short {e : UInt8} {m rest : Text} {us : List CharUnit} (he : IsEscape e)
      (tail : Chars m us rest) : Chars (backslash :: e :: m) (.byte (unescape e) :: us) rest
  | unicode {t m rest : Text} {v : Nat} {us : List CharUnit} (hex : Hex4 t v)
      (tail : Chars m us rest) : Chars (backslash :: letterU :: (t ++ m)) (.code v :: us) rest

/-! ## The grammar -/

/-- What a text can start with: a value, the elements of an array up to behind its
bracket, or the members of an object up to behind its brace. -/
inductive Part
  | value (v : Tree)
  | elements (vs : List Tree)
  | members (ms : List (List CharUnit × Tree))

def nullText : Text := [110, 117, 108, 108]

def boolText (b : Bool) : Text := if b then [116, 114, 117, 101] else [102, 97, 108, 115, 101]

inductive Reads : Part → Text → Text → Prop
  | null {m rest : Text} (h : skipWs m = nullText ++ rest) : Reads (.value .null) m rest
  | bool {m rest : Text} (b : Bool) (h : skipWs m = boolText b ++ rest) :
      Reads (.value (.bool b)) m rest
  | number {m t rest : Text} {p : NumberParts} (h : skipWs m = t ++ rest) (ht : NumberText t p)
      (hends : Ends rest) : Reads (.value (.number p)) m rest
  | string {m t rest : Text} {us : List CharUnit} (h : skipWs m = quote :: t)
      (hus : Chars t us rest) : Reads (.value (.string us)) m rest
  | emptyArray {m t rest : Text} (h : skipWs m = openBracket :: t)
      (hclose : skipWs t = closeBracket :: rest) : Reads (.value (.array [])) m rest
  | array {m t rest : Text} {vs : List Tree} (h : skipWs m = openBracket :: t)
      (hvs : Reads (.elements vs) t rest) : Reads (.value (.array vs)) m rest
  | emptyObject {m t rest : Text} (h : skipWs m = openBrace :: t)
      (hclose : skipWs t = closeBrace :: rest) : Reads (.value (.object [])) m rest
  | object {m t rest : Text} {ms : List (List CharUnit × Tree)} (h : skipWs m = openBrace :: t)
      (hms : Reads (.members ms) t rest) : Reads (.value (.object ms)) m rest
  | lastElement {m t rest : Text} {v : Tree} (hv : Reads (.value v) m t)
      (hclose : skipWs t = closeBracket :: rest) : Reads (.elements [v]) m rest
  | element {m t t' rest : Text} {v : Tree} {vs : List Tree} (hv : Reads (.value v) m t)
      (hcomma : skipWs t = comma :: t') (hvs : Reads (.elements vs) t' rest) :
      Reads (.elements (v :: vs)) m rest
  | lastMember {m k t t' rest r : Text} {us : List CharUnit} {v : Tree} (hk : skipWs m = quote :: k)
      (hus : Chars k us t) (hcolon : skipWs t = colon :: t') (hv : Reads (.value v) t' r)
      (hclose : skipWs r = closeBrace :: rest) : Reads (.members [(us, v)]) m rest
  | member {m k t t' rest r r' : Text} {us : List CharUnit} {v : Tree}
      {ms : List (List CharUnit × Tree)} (hk : skipWs m = quote :: k)
      (hus : Chars k us t) (hcolon : skipWs t = colon :: t') (hv : Reads (.value v) t' r)
      (hcomma : skipWs r = comma :: r') (hms : Reads (.members ms) r' rest) :
      Reads (.members ((us, v) :: ms)) m rest

/-- The text is a JSON text with the value `v`. -/
def IsJson (s : Text) (v : Value) : Prop :=
  ∃ t rest, Reads (.value t) s rest ∧ skipWs rest = [] ∧ t.value = v

/-! ## Numbers are read in one way -/

theorem takeDigits_append {ds rest : Text} {c : UInt8} (hds : ∀ d ∈ ds, IsDigit d)
    (hc : ¬ IsDigit c) : takeDigits (ds ++ c :: rest) = some (ds, c :: rest) := by
  induction ds with
  | nil => rw [List.nil_append, takeDigits, if_neg hc]
  | cons d ds ih =>
      rw [List.cons_append, takeDigits, if_pos (hds d List.mem_cons_self),
        ih fun e he => hds e (List.mem_cons_of_mem d he)]
      rfl

theorem takeWhole_append {p : NumberParts} {t rest : Text} {c : UInt8} (ht : NumberText t p)
    (hc : ¬ IsDigit c) :
    takeWhole ((if p.whole = [] then [48] else p.whole) ++ c :: rest)
      = some (p.whole, c :: rest) := by
  have hdigit : ¬ (49 ≤ c ∧ c ≤ 57) := fun h =>
    hc ⟨UInt8.le_trans (show (48 : UInt8) ≤ 49 by decide) h.1, h.2⟩
  cases hwhole : p.whole with
  | nil => simp [takeWhole, hdigit]
  | cons d ds =>
      have hds := ht.whole
      have hne := ht.leading
      rw [hwhole] at hds hne
      have hd : d ≠ 48 := hne d rfl
      have hlow : 49 ≤ d ∧ d ≤ 57 := by
        have hrange := hds d List.mem_cons_self
        refine ⟨?_, hrange.2⟩
        have hle := UInt8.le_iff_toNat_le.mp hrange.1
        have hnat : d.toNat ≠ 48 := fun h => hd (UInt8.toNat_inj.mp h)
        rw [UInt8.le_iff_toNat_le]
        change 48 ≤ d.toNat at hle
        change 49 ≤ d.toNat
        omega
      have htake := @takeDigits_append _ rest _ hds hc
      simp only [List.cons_append] at htake
      simp [takeWhole, hd, hlow, htake]

theorem takeFraction_append {p : NumberParts} {t rest : Text} {c : UInt8} (ht : NumberText t p)
    (hc : ¬ IsDigit c) (hpoint : c ≠ 46) :
    takeFraction ((if p.fraction = [] then [] else 46 :: p.fraction) ++ c :: rest)
      = some (p.fraction, c :: rest) := by
  cases hfraction : p.fraction with
  | nil => simp [takeFraction, hpoint]
  | cons d ds =>
      have hds := ht.fraction
      rw [hfraction] at hds
      have htake := @takeDigits_append _ rest _ hds hc
      simp only [List.cons_append] at htake
      simp [takeFraction, hds d List.mem_cons_self, htake]

theorem takeExponent_append {e rest : Text} {x : Option (Bool × Text)} {c : UInt8}
    (he : ExponentText e x) (hc : ¬ IsNumberChar c) :
    takeExponent (e ++ c :: rest) = some (x, c :: rest) := by
  have hdigit : ¬ IsDigit c := fun h => hc (.inl h)
  cases x with
  | none =>
      rw [he, List.nil_append]
      have hletter : ¬ (c = 101 ∨ c = 69) := fun h =>
        hc (.inr (.inr (.inr (.inr h))))
      simp [takeExponent, hletter]
  | some x =>
      obtain ⟨negative, ds⟩ := x
      obtain ⟨letter, sign, rfl, hletter, hsign, hne, hds⟩ := he
      have htake := @takeDigits_append _ rest _ hds hdigit
      obtain ⟨d, ds, rfl⟩ := List.exists_cons_of_ne_nil hne
      have hd := hds d List.mem_cons_self
      have hplus : d ≠ 43 := by rintro rfl; exact absurd hd (by decide)
      have hminus : d ≠ minus := by rintro rfl; exact absurd hd (by decide)
      rw [List.cons_append] at htake
      cases negative with
      | true =>
          rw [if_pos rfl] at hsign
          subst hsign
          simp [takeExponent, hletter, htake, minus]
      | false =>
          rw [if_neg (by decide)] at hsign
          rcases hsign with rfl | rfl
          · simp [takeExponent, hletter, htake, hplus, hminus]
          · simp [takeExponent, hletter, htake]

/-- An exponent, or what follows it, starts with no digit and no point. -/
theorem ExponentText.head {e : Text} {x : Option (Bool × Text)} (he : ExponentText e x) {c : UInt8}
    (hc : ¬ IsNumberChar c) (rest : Text) :
    ∃ d r, e ++ c :: rest = d :: r ∧ ¬ IsDigit d ∧ d ≠ 46 := by
  cases x with
  | none =>
      refine ⟨c, rest, by rw [he, List.nil_append], fun h => hc (.inl h), ?_⟩
      exact fun h => hc (.inr (.inr (.inr (.inl h))))
  | some x =>
      obtain ⟨negative, ds⟩ := x
      obtain ⟨letter, sign, rfl, hletter, -⟩ := he
      refine ⟨letter, _, rfl, ?_⟩
      rcases hletter with rfl | rfl <;> decide

/-- The whole part does not start with a sign. -/
theorem NumberText.whole_head {t : Text} {p : NumberParts} (ht : NumberText t p) (m : Text) :
    ∃ d r, (if p.whole = [] then [48] else p.whole) ++ m = d :: r ∧ d ≠ minus := by
  cases hwhole : p.whole with
  | nil => exact ⟨48, m, rfl, by decide⟩
  | cons d ds =>
      have hd : IsDigit d := ht.whole d (by rw [hwhole]; exact List.mem_cons_self)
      refine ⟨d, ds ++ m, rfl, ?_⟩
      rintro rfl
      exact absurd hd (by decide)

/-- **A number is taken to its end.** -/
theorem takeNumber_append {p : NumberParts} {t rest : Text} {c : UInt8} (ht : NumberText t p)
    (hc : ¬ IsNumberChar c) : takeNumber (t ++ c :: rest) = some (p, c :: rest) := by
  obtain ⟨e, he, rfl⟩ := ht.text
  have htake := @takeExponent_append _ rest _ _ he hc
  obtain ⟨d, r, hd, hdigit, hpoint⟩ := he.head hc rest
  rw [hd] at htake
  have hfraction := @takeFraction_append _ _ r _ ht hdigit hpoint
  have hwhole : takeWhole ((if p.whole = [] then [48] else p.whole) ++
      ((if p.fraction = [] then [] else 46 :: p.fraction) ++ d :: r))
      = some (p.whole, (if p.fraction = [] then [] else 46 :: p.fraction) ++ d :: r) := by
    by_cases hnil : p.fraction = []
    · rw [if_pos hnil, List.nil_append]
      exact takeWhole_append ht hdigit
    · rw [if_neg hnil, List.cons_append]
      exact takeWhole_append ht (by decide)
  simp only [List.append_assoc, hd]
  cases hnegative : p.negative with
  | true =>
      simp only [if_true, List.cons_append, List.nil_append, takeNumber, List.head?_cons,
        Option.bind_some, decide_true, List.tail_cons, hwhole, hfraction, htake, Option.map_some]
      rw [← hnegative]
  | false =>
      obtain ⟨w, ws, hw, hminus⟩ := ht.whole_head
        ((if p.fraction = [] then [] else 46 :: p.fraction) ++ d :: r)
      rw [hw] at hwhole
      simp only [Bool.false_eq_true, if_false, List.nil_append, hw, takeNumber, List.head?_cons,
        Option.bind_some, hminus, decide_false, hwhole, hfraction, htake, Option.map_some]
      rw [← hnegative]

/-- A number is read in one way. -/
theorem NumberText.unique {t t' rest rest' : Text} {p p' : NumberParts} (ht : NumberText t p)
    (ht' : NumberText t' p') (hends : Ends rest) (hends' : Ends rest')
    (heq : t ++ rest = t' ++ rest') : p' = p ∧ rest' = rest := by
  have htake : ∀ {t rest : Text} {p : NumberParts}, NumberText t p → Ends rest →
      takeNumber (t ++ rest ++ [0]) = some (p, rest ++ [0]) := by
    intro t rest p ht hends
    cases rest with
    | nil => simpa using @takeNumber_append _ _ [] 0 ht (by decide)
    | cons c rest =>
        have h := @takeNumber_append _ _ (rest ++ [0]) _ ht (hends c rfl)
        simpa using h
  have h := htake ht hends
  rw [heq, htake ht' hends'] at h
  injection h with h
  injection h with hp hrest
  exact ⟨hp, List.append_cancel_right hrest⟩

/-- A number starts with a digit or a sign. -/
theorem NumberText.head {t : Text} {p : NumberParts} (ht : NumberText t p) (m : Text) :
    ∃ c r, t ++ m = c :: r ∧ (IsDigit c ∨ c = minus) := by
  obtain ⟨e, -, rfl⟩ := ht.text
  cases p.negative with
  | true => exact ⟨minus, _, rfl, .inr rfl⟩
  | false =>
      cases hwhole : p.whole with
      | nil => exact ⟨48, _, rfl, .inl (by decide)⟩
      | cons d ds => exact ⟨d, _, rfl, .inl (ht.whole d (by rw [hwhole]; exact List.mem_cons_self))⟩

/-! ## Strings are read in one way -/

theorem Hex4.unique {t t' m m' : Text} {v v' : Nat} (h : Hex4 t v) (h' : Hex4 t' v')
    (heq : t ++ m = t' ++ m') : v' = v ∧ m' = m := by
  obtain ⟨a, b, c, d, w, x, y, z, rfl, hw, hx, hy, hz, rfl⟩ := h
  obtain ⟨a', b', c', d', w', x', y', z', rfl, hw', hx', hy', hz', rfl⟩ := h'
  simp only [List.cons_append, List.nil_append, List.cons.injEq] at heq
  obtain ⟨rfl, rfl, rfl, rfl, rfl⟩ := heq
  obtain rfl := Option.some.inj (hw.symm.trans hw')
  obtain rfl := Option.some.inj (hx.symm.trans hx')
  obtain rfl := Option.some.inj (hy.symm.trans hy')
  obtain rfl := Option.some.inj (hz.symm.trans hz')
  exact ⟨rfl, rfl⟩

theorem Chars.unique {m rest rest' : Text} {us us' : List CharUnit} (h : Chars m us rest)
    (h' : Chars m us' rest') : us' = us ∧ rest' = rest := by
  induction h generalizing us' with
  | close rest =>
      cases h' with
      | close => exact ⟨rfl, rfl⟩
      | plain hc => exact absurd rfl hc.2.1
  | plain hc tail ih =>
      cases h' with
      | close => exact absurd rfl hc.2.1
      | plain hc' tail' =>
          obtain ⟨rfl, rfl⟩ := ih tail'
          exact ⟨rfl, rfl⟩
      | short => exact absurd rfl hc.2.2
      | unicode => exact absurd rfl hc.2.2
  | short he tail ih =>
      cases h' with
      | plain hc => exact absurd rfl hc.2.2
      | short he' tail' =>
          obtain ⟨rfl, rfl⟩ := ih tail'
          exact ⟨rfl, rfl⟩
      | unicode => exact absurd he (by decide)
  | unicode hex tail ih =>
      generalize hm : backslash :: letterU :: (_ ++ _) = m at h'
      cases h' with
      | close => cases hm
      | plain hc =>
          injection hm with hm
          exact absurd hm.symm hc.2.2
      | short he =>
          simp only [List.cons.injEq, true_and] at hm
          rw [← hm.1] at he
          exact absurd he (by decide)
      | unicode hex' tail' =>
          simp only [List.cons.injEq, true_and] at hm
          obtain ⟨rfl, rfl⟩ := hex.unique hex' hm
          obtain ⟨rfl, rfl⟩ := ih tail'
          exact ⟨rfl, rfl⟩

/-! ## Texts are read in one way -/

/-- The type of a tree. -/
def Tree.type : Tree → JsonType
  | .null => .null
  | .bool b => if b then .true else .false
  | .number _ => .number
  | .string _ => .string
  | .array _ => .array
  | .object _ => .object

/-- The first character of a text tells its type. -/
def startType (c : UInt8) : Option JsonType :=
  if IsDigit c ∨ c = minus then some .number
  else if c = 110 then some .null
  else if c = 116 then some .true
  else if c = 102 then some .false
  else if c = quote then some .string
  else if c = openBracket then some .array
  else if c = openBrace then some .object
  else none

theorem Reads.start {v : Tree} {m rest : Text} (h : Reads (.value v) m rest) :
    ∃ c t, skipWs m = c :: t ∧ startType c = some v.type := by
  cases h with
  | null h => exact ⟨_, _, h, rfl⟩
  | bool b h => cases b <;> exact ⟨_, _, h, rfl⟩
  | number h ht =>
      obtain ⟨c, r, hcr, hc⟩ := ht.head _
      exact ⟨c, r, h.trans hcr, if_pos hc⟩
  | string h => exact ⟨_, _, h, rfl⟩
  | emptyArray h => exact ⟨_, _, h, rfl⟩
  | array h => exact ⟨_, _, h, rfl⟩
  | emptyObject h => exact ⟨_, _, h, rfl⟩
  | object h => exact ⟨_, _, h, rfl⟩

theorem Reads.type_eq {v v' : Tree} {m rest rest' : Text} (h : Reads (.value v) m rest)
    (h' : Reads (.value v') m rest') : v'.type = v.type := by
  obtain ⟨c, t, hm, hc⟩ := h.start
  obtain ⟨c', t', hm', hc'⟩ := h'.start
  rw [hm] at hm'
  injection hm' with hcc
  rw [← hcc, hc] at hc'
  exact (Option.some.inj hc').symm

/-- No element starts with what closes an array. -/
theorem Reads.elements_start {vs : List Tree} {m rest t : Text}
    (h : Reads (.elements vs) m rest) : skipWs m ≠ closeBracket :: t := by
  intro hm
  have hvalue : ∀ {v : Tree} {r : Text}, ¬ Reads (.value v) m r := by
    intro v r hv
    obtain ⟨c, t', hm', hc⟩ := hv.start
    rw [hm] at hm'
    injection hm' with hcc
    rw [← hcc] at hc
    cases hc
  cases h with
  | lastElement hv => exact hvalue hv
  | element hv => exact hvalue hv

/-- No member starts with what closes an object. -/
theorem Reads.members_start {ms : List (List CharUnit × Tree)} {m rest t : Text}
    (h : Reads (.members ms) m rest) : skipWs m ≠ closeBrace :: t := by
  intro hm
  cases h with
  | lastMember hk => cases hk.symm.trans hm
  | member hk => cases hk.symm.trans hm

/-- The part and the rest are the only ones of their kind that the text can be read as. -/
def Part.Only : Part → Text → Text → Prop
  | .value v, m, rest => ∀ v' rest', Reads (.value v') m rest' → v' = v ∧ rest' = rest
  | .elements vs, m, rest => ∀ vs' rest', Reads (.elements vs') m rest' → vs' = vs ∧ rest' = rest
  | .members ms, m, rest => ∀ ms' rest', Reads (.members ms') m rest' → ms' = ms ∧ rest' = rest

/-- **A text is read in one way.**  The induction is on the first reading; the
second one is taken apart as the first character says. -/
theorem Reads.only {p : Part} {m rest : Text} (h : Reads p m rest) : p.Only m rest := by
  induction h with
  | @null m rest h =>
      intro v' rest' h'
      have htype := (Reads.null h).type_eq h'
      cases h' with
      | null hm =>
          exact ⟨rfl, List.append_cancel_left (hm.symm.trans h)⟩
      | bool b => cases b <;> cases htype
      | _ => cases htype
  | @bool m rest b h =>
      intro v' rest' h'
      have htype := (Reads.bool b h).type_eq h'
      cases h' with
      | bool b' hm =>
          obtain rfl : b' = b := by cases b <;> cases b' <;> first | rfl | cases htype
          exact ⟨rfl, List.append_cancel_left (hm.symm.trans h)⟩
      | _ => cases b <;> cases htype
  | number h ht hends =>
      intro v' rest' h'
      have htype := (Reads.number h ht hends).type_eq h'
      cases h' with
      | number hm ht' hends' =>
          obtain ⟨rfl, rfl⟩ := ht.unique ht' hends hends' (h.symm.trans hm)
          exact ⟨rfl, rfl⟩
      | bool b => cases b <;> cases htype
      | _ => cases htype
  | string h hus =>
      intro v' rest' h'
      have htype := (Reads.string h hus).type_eq h'
      cases h' with
      | string hm hus' =>
          cases h.symm.trans hm
          obtain ⟨rfl, rfl⟩ := hus.unique hus'
          exact ⟨rfl, rfl⟩
      | bool b => cases b <;> cases htype
      | _ => cases htype
  | emptyArray h hclose =>
      intro v' rest' h'
      have htype := (Reads.emptyArray h hclose).type_eq h'
      cases h' with
      | emptyArray hm hclose' =>
          cases h.symm.trans hm
          cases hclose.symm.trans hclose'
          exact ⟨rfl, rfl⟩
      | array hm hvs =>
          cases h.symm.trans hm
          exact absurd hclose hvs.elements_start
      | bool b => cases b <;> cases htype
      | _ => cases htype
  | array h hvs ih =>
      intro v' rest' h'
      have htype := (Reads.array h hvs).type_eq h'
      cases h' with
      | emptyArray hm hclose =>
          cases h.symm.trans hm
          exact absurd hclose hvs.elements_start
      | array hm hvs' =>
          cases h.symm.trans hm
          obtain ⟨rfl, rfl⟩ := ih _ _ hvs'
          exact ⟨rfl, rfl⟩
      | bool b => cases b <;> cases htype
      | _ => cases htype
  | emptyObject h hclose =>
      intro v' rest' h'
      have htype := (Reads.emptyObject h hclose).type_eq h'
      cases h' with
      | emptyObject hm hclose' =>
          cases h.symm.trans hm
          cases hclose.symm.trans hclose'
          exact ⟨rfl, rfl⟩
      | object hm hms =>
          cases h.symm.trans hm
          exact absurd hclose hms.members_start
      | bool b => cases b <;> cases htype
      | _ => cases htype
  | object h hms ih =>
      intro v' rest' h'
      have htype := (Reads.object h hms).type_eq h'
      cases h' with
      | emptyObject hm hclose =>
          cases h.symm.trans hm
          exact absurd hclose hms.members_start
      | object hm hms' =>
          cases h.symm.trans hm
          obtain ⟨rfl, rfl⟩ := ih _ _ hms'
          exact ⟨rfl, rfl⟩
      | bool b => cases b <;> cases htype
      | _ => cases htype
  | lastElement hv hclose ih =>
      intro vs' rest' h'
      cases h' with
      | lastElement hv' hclose' =>
          obtain ⟨rfl, rfl⟩ := ih _ _ hv'
          cases hclose.symm.trans hclose'
          exact ⟨rfl, rfl⟩
      | element hv' hcomma =>
          obtain ⟨rfl, rfl⟩ := ih _ _ hv'
          cases hclose.symm.trans hcomma
  | element hv hcomma hvs ihv ih =>
      intro vs' rest' h'
      cases h' with
      | lastElement hv' hclose =>
          obtain ⟨rfl, rfl⟩ := ihv _ _ hv'
          cases hcomma.symm.trans hclose
      | element hv' hcomma' hvs' =>
          obtain ⟨rfl, rfl⟩ := ihv _ _ hv'
          cases hcomma.symm.trans hcomma'
          obtain ⟨rfl, rfl⟩ := ih _ _ hvs'
          exact ⟨rfl, rfl⟩
  | lastMember hk hus hcolon hv hclose ih =>
      intro ms' rest' h'
      cases h' with
      | lastMember hk' hus' hcolon' hv' hclose' =>
          cases hk.symm.trans hk'
          obtain ⟨rfl, rfl⟩ := hus.unique hus'
          cases hcolon.symm.trans hcolon'
          obtain ⟨rfl, rfl⟩ := ih _ _ hv'
          cases hclose.symm.trans hclose'
          exact ⟨rfl, rfl⟩
      | member hk' hus' hcolon' hv' hcomma =>
          cases hk.symm.trans hk'
          obtain ⟨rfl, rfl⟩ := hus.unique hus'
          cases hcolon.symm.trans hcolon'
          obtain ⟨rfl, rfl⟩ := ih _ _ hv'
          cases hclose.symm.trans hcomma
  | member hk hus hcolon hv hcomma hms ihv ih =>
      intro ms' rest' h'
      cases h' with
      | lastMember hk' hus' hcolon' hv' hclose =>
          cases hk.symm.trans hk'
          obtain ⟨rfl, rfl⟩ := hus.unique hus'
          cases hcolon.symm.trans hcolon'
          obtain ⟨rfl, rfl⟩ := ihv _ _ hv'
          cases hcomma.symm.trans hclose
      | member hk' hus' hcolon' hv' hcomma' hms' =>
          cases hk.symm.trans hk'
          obtain ⟨rfl, rfl⟩ := hus.unique hus'
          cases hcolon.symm.trans hcolon'
          obtain ⟨rfl, rfl⟩ := ihv _ _ hv'
          cases hcomma.symm.trans hcomma'
          obtain ⟨rfl, rfl⟩ := ih _ _ hms'
          exact ⟨rfl, rfl⟩

/-- A text has one value at most. -/
theorem IsJson.unique {s : Text} {v v' : Value} (h : IsJson s v) (h' : IsJson s v') : v' = v := by
  obtain ⟨t, rest, hreads, -, rfl⟩ := h
  obtain ⟨t', rest', hreads', -, rfl⟩ := h'
  rw [(hreads.only t' rest' hreads').1]

end Libubox.Json
