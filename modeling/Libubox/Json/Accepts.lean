import Libubox.Json.Grammar

/-!
# The parser reads every JSON text

`Json.Mirrors` relates what a text says to the chain of nodes that the parser
builds: the same members and elements in the same order, of the same types.  The
parser has such a chain for every part of a text, whatever it makes of the
characters of strings and of the digits of numbers (`Reads.parse`).
-/

namespace Libubox.Json

open Decimal

/-- A chain of nodes for a part of a text. -/
inductive Mirrors : Part → Json → Prop
  | null {item : Item} (htype : item.type = .null) : Mirrors (.value .null) (node item nil nil)
  | bool {item : Item} (b : Bool) (htype : item.type = if b then .true else .false) :
      Mirrors (.value (.bool b)) (node item nil nil)
  | number {item : Item} {p : NumberParts} (htype : item.type = .number) :
      Mirrors (.value (.number p)) (node item nil nil)
  | string {item : Item} {us : List CharUnit} (htype : item.type = .string)
      (hvalue : item.valuestring ≠ none) : Mirrors (.value (.string us)) (node item nil nil)
  | array {item : Item} {vs : List Tree} {child : Json} (htype : item.type = .array)
      (hchild : Mirrors (.elements vs) child) : Mirrors (.value (.array vs)) (node item child nil)
  | object {item : Item} {ms : List (List CharUnit × Tree)} {child : Json}
      (htype : item.type = .object) (hchild : Mirrors (.members ms) child) :
      Mirrors (.value (.object ms)) (node item child nil)
  | noElements : Mirrors (.elements []) nil
  | element {item : Item} {v : Tree} {vs : List Tree} {child next : Json}
      (hv : Mirrors (.value v) (node item child nil)) (hnext : Mirrors (.elements vs) next) :
      Mirrors (.elements (v :: vs)) (node item child next)
  | noMembers : Mirrors (.members []) nil
  | member {item : Item} {us : List CharUnit} {v : Tree} {ms : List (List CharUnit × Tree)}
      {child next : Json} (hkey : item.string ≠ none) (hv : Mirrors (.value v) (node item child nil))
      (hnext : Mirrors (.members ms) next) : Mirrors (.members ((us, v) :: ms)) (node item child next)

/-- The node of a value stands alone. -/
theorem Mirrors.alone {v : Tree} {j : Json} (h : Mirrors (.value v) j) :
    ∃ item child, j = node item child nil := by
  cases h <;> exact ⟨_, _, rfl⟩

/-- A key does not change what a node is. -/
theorem Mirrors.keyed {v : Tree} {item : Item} {child : Json}
    (h : Mirrors (.value v) (node item child nil)) (key : Option Text) :
    Mirrors (.value v) (node { item with string := key } child nil) := by
  cases h with
  | null htype => exact .null htype
  | bool b htype => exact .bool b htype
  | number htype => exact .number htype
  | string htype hvalue => exact .string htype hvalue
  | array htype hchild => exact .array htype hchild
  | object htype hchild => exact .object htype hchild

/-! ## Strings -/

/-- The characters of a string are a body up to the closing quote. -/
theorem Chars.body {t rest : Text} {us : List CharUnit} (h : Chars t us rest) :
    ∃ b out, t = b ++ quote :: rest ∧ Body joined b out := by
  -- a pair of escapes is read at once, so the induction is on the length
  induction hn : t.length using Nat.strong_induction_on generalizing t us with
  | _ n ih =>
      subst hn
      cases h with
      | close rest => exact ⟨[], [], rfl, .nil⟩
      | @plain c m _ _ hc tail =>
          obtain ⟨b, out, rfl, hbody⟩ := ih m.length (by simp) tail rfl
          refine ⟨c :: b, c :: out, rfl, .plain ⟨hc.2.1, hc.2.2, ?_⟩ hbody⟩
          rintro rfl
          exact absurd hc.1 (by decide)
      | @short e m _ _ he tail =>
          obtain ⟨b, out, rfl, hbody⟩ := ih m.length (by simp) tail rfl
          have hletter : e ≠ letterU ∧ e ≠ 0 := by
            rcases he with rfl | rfl | rfl | rfl | rfl | rfl | rfl | rfl <;> decide
          exact ⟨backslash :: e :: b, unescape e :: out, rfl, .short hletter hbody⟩
      | @unicode t m _ v us hex tail =>
          obtain ⟨b, out, hm, hbody⟩ := ih m.length (by simp; omega) tail rfl
          have hsplit : ∀ b' : Text, backslash :: letterU :: (t ++ (b' ++ quote :: rest))
              = (backslash :: letterU :: (t ++ b')) ++ quote :: rest := by
            intro b'
            simp
          by_cases hlow : v = 0 ∨ IsLow v
          · exact ⟨_, out, by rw [hm, hsplit], .dropped hex hlow hbody⟩
          by_cases hhigh : IsHigh v
          · by_cases hstart : StartsUnicode b
            · -- another escape follows: it belongs to this one
              obtain ⟨tail', rfl⟩ := hstart
              cases tail with
              | close => cases hm
              | plain hc _ => exact absurd (List.cons.inj hm).1 hc.2.2
              | short he _ =>
                  have hu := (List.cons.inj (List.cons.inj hm).2).1
                  subst hu
                  exact absurd he (by decide)
              | @unicode t' m' _ v' _ hex' tail' =>
                  obtain ⟨b', out', hm', hbody'⟩ := ih m'.length (by simp; omega) tail' rfl
                  refine ⟨backslash :: letterU :: (t ++ backslash :: letterU :: (t' ++ b')), ?_⟩
                  by_cases hlow' : IsLow v'
                  · exact ⟨_, by rw [hm']; simp, .pair hex hhigh hex' hlow' hbody'⟩
                  · exact ⟨out', by rw [hm']; simp, .broken hex hhigh hex' hlow' hbody'⟩
            · exact ⟨_, out, by rw [hm, hsplit], .alone hex hhigh hstart hbody⟩
          · have hscalar : IsScalar v := by
              unfold IsScalar
              unfold IsLow at hlow
              unfold IsHigh at hhigh
              omega
            exact ⟨_, _, by rw [hm, hsplit], .unicode hex hscalar hbody⟩

/-- A string is parsed. -/
theorem Chars.parseString {t rest : Text} {us : List CharUnit} (h : Chars t us rest) (env : Libc)
    (z : Text) : ∃ out, Json.parseString env (quote :: (t ++ z)) = .ok out (rest ++ z) := by
  obtain ⟨b, out, rfl, hbody⟩ := h.body
  refine ⟨out, ?_⟩
  rw [List.append_assoc, List.cons_append]
  exact hbody.parseString env (rest ++ z)

/-! ## White space and keywords -/

theorem skip_append {m t : Text} {c : UInt8} (h : skipWs m = c :: t) (hc : isSpace c = false)
    (z : Text) : skip (m ++ z) = c :: (t ++ z) := by
  induction m with
  | nil => cases h
  | cons a m ih =>
      rw [skipWs, List.dropWhile_cons] at h
      rw [skip, List.cons_append, List.dropWhile_cons]
      by_cases ha : (a = 32 || a = 9 || a = 10 || a = 13) = true
      · rw [if_pos ha] at h
        have hspace : isSpace a = true := by
          simp only [Bool.or_eq_true, decide_eq_true_eq] at ha
          rcases ha with ((rfl | rfl) | rfl) | rfl <;> decide
        rw [if_pos hspace]
        exact ih h
      · rw [if_neg ha] at h
        obtain ⟨rfl, rfl⟩ := List.cons.inj h
        rw [if_neg (by simp [hc])]

theorem nextChar_append {m t : Text} {c : UInt8} (h : skipWs m = c :: t) (hc : isSpace c = false)
    (z : Text) : nextChar (m ++ z) = .ok c (t ++ z) := by
  rw [nextChar, skip_append h hc z]

/-- A text goes on with something that is no terminator. -/
def Followed (m : Text) : Prop := ∃ c r, m = c :: r ∧ c ≠ 0

theorem followed_of_skipWs {m t : Text} {c : UInt8} (h : skipWs m = c :: t) (hc : c ≠ 0) :
    Followed m := by
  cases m with
  | nil => cases h
  | cons a m =>
      refine ⟨a, m, rfl, ?_⟩
      rintro rfl
      rw [skipWs, List.dropWhile_cons, if_neg (by decide)] at h
      exact hc (List.cons.inj h).1.symm

/-- No keyword starts with `c`. -/
theorem parseKeyword_other {c : UInt8} (h : c ≠ 110 ∧ c ≠ 102 ∧ c ≠ 116) (m : Text) :
    parseKeyword (c :: m) = some (none, c :: m) := by
  simp [parseKeyword, streamCmp, h.1, h.2.1, h.2.2]

theorem parseKeyword_null {c : UInt8} (hc : c ≠ 0) (m : Text) :
    parseKeyword (nullText ++ c :: m) = some (some (typed .null 0), c :: m) := by
  simp [parseKeyword, streamCmp, nullText, hc]

theorem parseKeyword_bool {c : UInt8} (hc : c ≠ 0) (b : Bool) (m : Text) :
    ∃ k, parseKeyword (boolText b ++ c :: m)
      = some (some (typed (if b then .true else .false) k), c :: m) := by
  cases b with
  | false => exact ⟨0, by simp [parseKeyword, streamCmp, boolText, hc]⟩
  | true => exact ⟨1, by simp [parseKeyword, streamCmp, boolText, hc]⟩

/-! ## Parts -/

/-- The parser of a part, at its first character. -/
def parsePart (env : Libc) (fuel : Nat) : Part → Text → Outcome Json
  | .value _, m => parseValue env fuel m
  | .elements _, m => parseElements env fuel m
  | .members _, m => parseMembers env fuel m

/-- The fuel a part needs beside three units for each character. -/
def Part.fuel : Part → Nat
  | .value _ => 1
  | .elements _ | .members _ => 2

/-- Keywords and numbers are read up to the character behind them. -/
def Part.Open : Part → Text → Prop
  | .value .null, rest | .value (.bool _), rest | .value (.number _), rest => Followed rest
  | _, _ => True

theorem Part.open_of_followed (p : Part) {rest : Text} (h : Followed rest) : p.Open rest := by
  unfold Part.Open
  split <;> trivial

/-- The elements behind the first are linked to it. -/
theorem Mirrors.linkElement {v : Tree} {vs : List Tree} {child next : Json}
    (hv : Mirrors (.value v) child) (hvs : Mirrors (.elements vs) next) :
    Mirrors (.elements (v :: vs)) (linkNext next child) := by
  obtain ⟨item, below, rfl⟩ := hv.alone
  exact .element hv hvs

theorem Mirrors.linkMember {us : List CharUnit} {v : Tree} {ms : List (List CharUnit × Tree)}
    {child next : Json} (hv : Mirrors (.value v) child) (hms : Mirrors (.members ms) next)
    (key : Text) : Mirrors (.members ((us, v) :: ms)) (linkNext next (setKey key child)) := by
  obtain ⟨item, below, rfl⟩ := hv.alone
  exact .member (Option.some_ne_none key) (hv.keyed (some key)) hms

/-- The last member, with its key. -/
theorem Mirrors.lastMember {us : List CharUnit} {v : Tree} {child : Json}
    (hv : Mirrors (.value v) child) (key : Text) :
    Mirrors (.members [(us, v)]) (setKey key child) := by
  obtain ⟨item, below, rfl⟩ := hv.alone
  exact .member (Option.some_ne_none key) (hv.keyed (some key)) .noMembers

theorem Mirrors.lastElement {v : Tree} {child : Json} (hv : Mirrors (.value v) child) :
    Mirrors (.elements [v]) child := by
  obtain ⟨item, below, rfl⟩ := hv.alone
  exact .element hv .noElements

theorem length_of_skipWs {m t : Text} {c : UInt8} (h : skipWs m = c :: t) :
    t.length < m.length := by
  have hle : (skipWs m).length ≤ m.length := (List.dropWhile_suffix _).length_le
  rw [h, List.length_cons] at hle
  exact hle

theorem isSpace_of_startType {c : UInt8} {type : JsonType} (h : startType c = some type) :
    isSpace c = false := by
  unfold startType at h
  unfold isSpace
  unfold IsDigit at h
  grind

/-- A part starts with a character that the parser stops at. -/
theorem Reads.head {p : Part} {m rest : Text} (h : Reads p m rest) :
    ∃ c t, skipWs m = c :: t ∧ isSpace c = false := by
  have hvalue {v : Tree} {r : Text} (hv : Reads (.value v) m r) :
      ∃ c t, skipWs m = c :: t ∧ isSpace c = false := by
    obtain ⟨c, t, hm, hc⟩ := hv.start
    exact ⟨c, t, hm, isSpace_of_startType hc⟩
  cases p with
  | value v => exact hvalue h
  | elements vs =>
      cases h with
      | lastElement hv => exact hvalue hv
      | element hv => exact hvalue hv
  | members ms =>
      cases h with
      | lastMember hk => exact ⟨quote, _, hk, by decide⟩
      | member hk => exact ⟨quote, _, hk, by decide⟩

/-- `parse_value` at a character that starts no keyword. -/
theorem parseValue_other (env : Libc) (fuel : Nat) {c : UInt8} (h : c ≠ 110 ∧ c ≠ 102 ∧ c ≠ 116)
    (m : Text) : parseValue env (fuel + 1) (c :: m)
      = if c = quote then
          (parseString env (c :: m)).bind fun out rest =>
            .ok (node { newItem with type := .string, valuestring := some out } nil nil) rest
        else if c = minus ∨ IsDigit c then parseNumber env (c :: m)
        else if c = openBracket then parseArray env fuel m
        else if c = openBrace then parseObject env fuel m
        else .null (c :: m) := by
  rw [parseValue, parseKeyword_other h]

/-- A container that is not empty goes on with the first of its parts. -/
theorem nextChar_part {p : Part} {m rest : Text} (h : Reads p m rest) (z : Text) :
    ∃ c t, skipWs m = c :: t ∧ nextChar (m ++ z) = .ok c (t ++ z) ∧
      c :: (t ++ z) = skip (m ++ z) := by
  obtain ⟨c, t, hm, hc⟩ := h.head
  exact ⟨c, t, hm, nextChar_append hm hc z, (skip_append hm hc z).symm⟩

/-- A keyword, with something behind it. -/
theorem parseValue_keyword (env : Libc) (fuel : Nat) {m rest : Text} {item : Json}
    (h : parseKeyword m = some (some item, rest)) :
    parseValue env (fuel + 1) m = .ok item rest := by
  rw [parseValue, h]

/-- A number, with something behind it. -/
theorem parseValue_number (env : Libc) (fuel : Nat) {t r : Text} {p : NumberParts} {c : UInt8}
    (ht : NumberText t p) (hc : ¬IsNumberChar c) :
    parseValue env (fuel + 1) (t ++ c :: r) = .ok (node (numberItem env p) nil nil) (c :: r) := by
  have htake := @takeNumber_append p t r c ht hc
  obtain ⟨d, t', hd, hdigit⟩ := ht.head (c :: r)
  have hother : (d ≠ 110 ∧ d ≠ 102 ∧ d ≠ 116) ∧ d ≠ quote := by
    unfold IsDigit at hdigit
    grind
  rw [hd] at htake ⊢
  rw [parseValue_other env fuel hother.1, if_neg hother.2, if_pos hdigit.symm, parseNumber, htake]

/-- The key of a member, up to behind the colon. -/
theorem member_key (env : Libc) {m k t t' : Text} {us : List CharUnit} (hk : skipWs m = quote :: k)
    (hus : Chars k us t) (hcolon : skipWs t = colon :: t') (z : Text) :
    ∃ key, parseString env (skip (m ++ z)) = .ok key (t ++ z) ∧ (t' ++ z).length < (m ++ z).length := by
  obtain ⟨key, hkey⟩ := hus.parseString env z
  have hwithin := parseString_within env (quote :: (k ++ z))
  have hlt := length_of_skipWs hk
  have hlt' := length_of_skipWs hcolon
  rw [hkey] at hwithin
  simp only [Outcome.Within, List.length_append, List.length_cons] at hwithin
  refine ⟨key, by rw [skip_append hk (by decide), hkey], ?_⟩
  rw [List.length_append, List.length_append]
  omega

/-- **Every part of a JSON text is parsed**, by induction over its reading. -/
theorem Reads.parse (env : Libc) {p : Part} {m rest : Text} (h : Reads p m rest)
    (hopen : p.Open rest) (z : Text) (fuel : Nat) (hfuel : 3 * (m ++ z).length + p.fuel ≤ fuel) :
    ∃ j, parsePart env fuel p (skip (m ++ z)) = .ok j (rest ++ z) ∧ Mirrors p j := by
  induction h generalizing fuel with
  | null h =>
      obtain ⟨fuel, rfl⟩ : ∃ k, fuel = k + 1 := ⟨fuel - 1, by simp only [Part.fuel] at hfuel; omega⟩
      obtain ⟨c, r, rfl, hc⟩ := hopen
      refine ⟨typed .null 0, ?_, .null rfl⟩
      rw [skip_append h (by decide)]
      exact parseValue_keyword env fuel (parseKeyword_null hc (r ++ z))
  | bool b h =>
      obtain ⟨fuel, rfl⟩ : ∃ k, fuel = k + 1 := ⟨fuel - 1, by simp only [Part.fuel] at hfuel; omega⟩
      obtain ⟨c, r, rfl, hc⟩ := hopen
      obtain ⟨k, hkeyword⟩ := parseKeyword_bool hc b (r ++ z)
      refine ⟨typed (if b then .true else .false) k, ?_, .bool b rfl⟩
      cases b with
      | false =>
          rw [skip_append h (by decide)]
          exact parseValue_keyword env fuel hkeyword
      | true =>
          rw [skip_append h (by decide)]
          exact parseValue_keyword env fuel hkeyword
  | @number m t rest p h ht hends =>
      obtain ⟨fuel, rfl⟩ : ∃ k, fuel = k + 1 := ⟨fuel - 1, by simp only [Part.fuel] at hfuel; omega⟩
      obtain ⟨c, r, rfl, hc⟩ := hopen
      obtain ⟨d, t', hd, hdigit⟩ := ht.head (c :: r)
      rw [hd] at h
      refine ⟨node (numberItem env p) nil nil, ?_, .number rfl⟩
      rw [skip_append h (isSpace_of_startType (if_pos hdigit)), ← List.cons_append, ← hd,
        List.append_assoc]
      exact parseValue_number env fuel ht (hends c rfl)
  | string h hus =>
      obtain ⟨fuel, rfl⟩ : ∃ k, fuel = k + 1 := ⟨fuel - 1, by simp only [Part.fuel] at hfuel; omega⟩
      obtain ⟨out, hout⟩ := hus.parseString env z
      refine ⟨node { newItem with type := .string, valuestring := some out } nil nil, ?_,
        .string rfl (Option.some_ne_none out)⟩
      rw [skip_append h (by decide), parsePart, parseValue_other env fuel (by decide), if_pos rfl,
        hout, Outcome.bind_ok]
  | @emptyArray m t rest h hclose =>
      have hlt := length_of_skipWs h
      simp only [Part.fuel, List.length_append] at hfuel
      obtain ⟨fuel, rfl⟩ : ∃ k, fuel = k + 2 := ⟨fuel - 2, by omega⟩
      refine ⟨node { newItem with type := .array } nil nil, ?_, .array rfl .noElements⟩
      rw [skip_append h (by decide), parsePart, parseValue_other env (fuel + 1) (by decide),
        if_neg (by decide), if_neg (by decide), if_pos rfl, parseArray,
        nextChar_append hclose (by decide), Outcome.bind_ok, if_pos rfl]
  | @array m t rest vs h hvs ih =>
      have hlt := length_of_skipWs h
      simp only [Part.fuel, List.length_append] at hfuel
      obtain ⟨fuel, rfl⟩ : ∃ k, fuel = k + 2 := ⟨fuel - 2, by omega⟩
      obtain ⟨child, hchild, hmirrors⟩ := ih trivial fuel
        (by simp only [Part.fuel, List.length_append]; omega)
      obtain ⟨c, t', ht, hnext, hskip⟩ := nextChar_part hvs z
      have hc : c ≠ closeBracket := by
        rintro rfl
        exact hvs.elements_start ht
      refine ⟨node { newItem with type := .array } child nil, ?_, .array rfl hmirrors⟩
      rw [← hskip] at hchild
      rw [skip_append h (by decide), parsePart, parseValue_other env (fuel + 1) (by decide),
        if_neg (by decide), if_neg (by decide), if_pos rfl, parseArray, hnext, Outcome.bind_ok,
        if_neg hc]
      rw [parsePart] at hchild
      rw [hchild, Outcome.bind_ok]
  | @emptyObject m t rest h hclose =>
      have hlt := length_of_skipWs h
      simp only [Part.fuel, List.length_append] at hfuel
      obtain ⟨fuel, rfl⟩ : ∃ k, fuel = k + 2 := ⟨fuel - 2, by omega⟩
      refine ⟨node { newItem with type := .object } nil nil, ?_, .object rfl .noMembers⟩
      rw [skip_append h (by decide), parsePart, parseValue_other env (fuel + 1) (by decide),
        if_neg (by decide), if_neg (by decide), if_neg (by decide), if_pos rfl, parseObject,
        nextChar_append hclose (by decide), Outcome.bind_ok, if_pos rfl]
  | @object m t rest ms h hms ih =>
      have hlt := length_of_skipWs h
      simp only [Part.fuel, List.length_append] at hfuel
      obtain ⟨fuel, rfl⟩ : ∃ k, fuel = k + 2 := ⟨fuel - 2, by omega⟩
      obtain ⟨child, hchild, hmirrors⟩ := ih trivial fuel
        (by simp only [Part.fuel, List.length_append]; omega)
      obtain ⟨c, t', ht, hnext, hskip⟩ := nextChar_part hms z
      have hc : c ≠ closeBrace := by
        rintro rfl
        exact hms.members_start ht
      refine ⟨node { newItem with type := .object } child nil, ?_, .object rfl hmirrors⟩
      rw [← hskip, parsePart] at hchild
      rw [skip_append h (by decide), parsePart, parseValue_other env (fuel + 1) (by decide),
        if_neg (by decide), if_neg (by decide), if_neg (by decide), if_pos rfl, parseObject, hnext,
        Outcome.bind_ok, if_neg hc, hchild, Outcome.bind_ok]
  | @lastElement m t rest v hv hclose ih =>
      simp only [Part.fuel, List.length_append] at hfuel
      obtain ⟨fuel, rfl⟩ : ∃ k, fuel = k + 1 := ⟨fuel - 1, by omega⟩
      obtain ⟨child, hchild, hmirrors⟩ := ih (Part.open_of_followed _ (followed_of_skipWs hclose (by decide))) fuel
        (by simp only [Part.fuel, List.length_append]; omega)
      refine ⟨child, ?_, hmirrors.lastElement⟩
      rw [parsePart] at hchild
      rw [parsePart, parseElements, hchild, Outcome.bind_ok, nextChar_append hclose (by decide),
        Outcome.bind_ok, if_neg (by decide), if_pos rfl]
  | @element m t t' rest v vs hv hcomma hvs ihv ihvs =>
      simp only [Part.fuel, List.length_append] at hfuel
      obtain ⟨fuel, rfl⟩ : ∃ k, fuel = k + 1 := ⟨fuel - 1, by omega⟩
      obtain ⟨child, hchild, hmirrors⟩ := ihv (Part.open_of_followed _ (followed_of_skipWs hcomma (by decide))) fuel
        (by simp only [Part.fuel, List.length_append]; omega)
      rw [parsePart] at hchild
      have hlt := length_of_skipWs hcomma
      have hwithin := (parse_within env fuel).1 (skip (m ++ z))
      have hskip := skip_length (m ++ z)
      rw [hchild] at hwithin
      simp only [Outcome.Within, List.length_append] at hwithin hskip
      obtain ⟨next, hnext, hmirrors'⟩ := ihvs trivial fuel
        (by simp only [Part.fuel, List.length_append]; omega)
      obtain ⟨c, t'', ht, hchar, hskip'⟩ := nextChar_part hvs z
      have hc : c ≠ closeBracket := by
        rintro rfl
        exact hvs.elements_start ht
      rw [← hskip', parsePart] at hnext
      refine ⟨linkNext next child, ?_, hmirrors.linkElement hmirrors'⟩
      rw [parsePart, parseElements, hchild, Outcome.bind_ok, nextChar_append hcomma (by decide),
        Outcome.bind_ok, if_pos rfl, hchar, Outcome.bind_ok, if_neg hc, hnext, Outcome.bind_ok]
  | @lastMember m k t t' rest r us v hk hus hcolon hv hclose ih =>
      simp only [Part.fuel, List.length_append] at hfuel
      obtain ⟨fuel, rfl⟩ : ∃ k, fuel = k + 1 := ⟨fuel - 1, by omega⟩
      obtain ⟨key, hkey, hle⟩ := member_key env hk hus hcolon z
      rw [List.length_append, List.length_append] at hle
      obtain ⟨child, hchild, hmirrors⟩ := ih (Part.open_of_followed _ (followed_of_skipWs hclose (by decide))) fuel
        (by simp only [Part.fuel, List.length_append]; omega)
      rw [parsePart] at hchild
      refine ⟨setKey key child, ?_, hmirrors.lastMember key⟩
      rw [parsePart, parseMembers, hkey, Outcome.bind_ok, nextChar_append hcolon (by decide),
        Outcome.bind_ok, if_neg (by decide), hchild, Outcome.bind_ok,
        nextChar_append hclose (by decide), Outcome.bind_ok, if_neg (by decide), if_pos rfl]
  | @member m k t t' rest r r' us v ms hk hus hcolon hv hcomma hms ihv ihms =>
      simp only [Part.fuel, List.length_append] at hfuel
      obtain ⟨fuel, rfl⟩ : ∃ k, fuel = k + 1 := ⟨fuel - 1, by omega⟩
      obtain ⟨key, hkey, hle⟩ := member_key env hk hus hcolon z
      rw [List.length_append, List.length_append] at hle
      obtain ⟨child, hchild, hmirrors⟩ := ihv (Part.open_of_followed _ (followed_of_skipWs hcomma (by decide))) fuel
        (by simp only [Part.fuel, List.length_append]; omega)
      rw [parsePart] at hchild
      have hlt := length_of_skipWs hcomma
      have hwithin := (parse_within env fuel).1 (skip (t' ++ z))
      have hskip := skip_length (t' ++ z)
      rw [hchild] at hwithin
      simp only [Outcome.Within, List.length_append] at hwithin hskip
      obtain ⟨next, hnext, hmirrors'⟩ := ihms trivial fuel
        (by simp only [Part.fuel, List.length_append]; omega)
      obtain ⟨c, t'', ht, hchar, hskip'⟩ := nextChar_part hms z
      have hc : c ≠ closeBrace := by
        rintro rfl
        exact hms.members_start ht
      rw [← hskip', parsePart] at hnext
      refine ⟨linkNext next (setKey key child), ?_, hmirrors.linkMember hmirrors' key⟩
      rw [parsePart, parseMembers, hkey, Outcome.bind_ok, nextChar_append hcolon (by decide),
        Outcome.bind_ok, if_neg (by decide), hchild, Outcome.bind_ok,
        nextChar_append hcomma (by decide), Outcome.bind_ok, if_pos rfl, hchar, Outcome.bind_ok,
        if_neg hc, hnext, Outcome.bind_ok]

/-- The whole text of an object is parsed, whatever lies behind it. -/
theorem Reads.jsonParse_object (env : Libc) {s rest : Text} {ms : List (List CharUnit × Tree)}
    (h : Reads (.value (.object ms)) s rest) (z : Text) :
    ∃ item child, jsonParse env (s ++ z) = .ok (node item child nil) (rest ++ z) ∧
      item.type = .object ∧ Mirrors (.members ms) child := by
  obtain ⟨j, hparse, hmirrors⟩ := h.parse env trivial z _ (Nat.le_refl _)
  cases hmirrors with
  | object htype hchild => exact ⟨_, _, hparse, htype, hchild⟩

end Libubox.Json
