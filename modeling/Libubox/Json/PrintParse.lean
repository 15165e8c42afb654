import Libubox.Json.Accepts
import Libubox.Json.Integers
import Libubox.Json.PrintFits
import Mathlib.Data.List.TakeWhile

/-!
# Printed trees are read back

`json_parse` on what `json_to_string` and `json_to_string_unformatted` print.  A tree
comes back as it was: the same types, keys and strings in the same order, and the same
integers (`Alike`).
-/

namespace Libubox.Json

open Binary64 Decimal Printer

/-! ## Trees -/

/-- An item without children whose text says what it is: an integer is one that a
`double` has room for, a string ends at its terminator. -/
def IsLeaf (item : Item) : Prop :=
  match item.type with
  | .null | .true | .false => True
  | .number => item.valuedouble = .ofInt item.valueint ∧ item.valueint.natAbs ≤ 2 ^ 53
  | .string => ∃ s, item.valuestring = some s ∧ 0 ∉ s
  | .array | .object => False

/-- A text that an item brings along is the one that the call would print. -/
def Current (env : Libc) (fmt : Bool) (depth : Nat) (item : Item) (texts : List (Text × Text)) :
    Prop :=
  ∀ t, cached fmt item = some t → t = itemText env fmt depth { item with printOut := none } texts

theorem current_of_fresh {env : Libc} {fmt : Bool} {depth : Nat} {item : Item}
    {texts : List (Text × Text)} (h : item.printOut = none) : Current env fmt depth item texts := by
  intro t ht
  rw [cached, h, ite_self] at ht
  cases ht

theorem itemText_of_current {env : Libc} {fmt : Bool} {depth : Nat} {item : Item}
    {texts : List (Text × Text)} (h : Current env fmt depth item texts) :
    itemText env fmt depth item texts
      = match item.type with
        | .null => [110, 117, 108, 108]
        | .false => [102, 97, 108, 115, 101]
        | .true => [116, 114, 117, 101]
        | .number => (printNumber env item).2
        | .string => stringText item.valuestring
        | .array => arrayText fmt (texts.map Prod.snd)
        | .object => objectText fmt (depth + 1) texts := by
  have hnone : cached fmt { item with printOut := none } = none := ite_self none
  cases hcached : cached fmt item with
  | none => exact itemText_of_fresh hcached
  | some t =>
      rw [itemText_of_cached hcached, h t hcached, itemText_of_fresh hnone]
      rfl

/-- A chain of such items and of arrays and objects, with no text that is out of date.
The members of an object are `keyed`: each has a key. -/
inductive Plain (env : Libc) (fmt : Bool) : Nat → Bool → Json → Prop
  | nil {depth : Nat} {keyed : Bool} : Plain env fmt depth keyed nil
  | leaf {depth : Nat} {keyed : Bool} {item : Item} {next : Json}
      (hcurrent : Current env fmt depth item [])
      (hkey : keyed = true → ∃ key, item.string = some key ∧ 0 ∉ key) (hleaf : IsLeaf item)
      (hnext : Plain env fmt depth keyed next) : Plain env fmt depth keyed (node item nil next)
  | array {depth : Nat} {keyed : Bool} {item : Item} {child next : Json}
      (hcurrent : Current env fmt depth item (chainTexts env fmt (depth + 1) child))
      (hkey : keyed = true → ∃ key, item.string = some key ∧ 0 ∉ key) (htype : item.type = .array)
      (hchild : Plain env fmt (depth + 1) false child) (hnext : Plain env fmt depth keyed next) :
      Plain env fmt depth keyed (node item child next)
  | object {depth : Nat} {keyed : Bool} {item : Item} {child next : Json}
      (hcurrent : Current env fmt depth item (chainTexts env fmt (depth + 1) child))
      (hkey : keyed = true → ∃ key, item.string = some key ∧ 0 ∉ key) (htype : item.type = .object)
      (hchild : Plain env fmt (depth + 1) true child) (hnext : Plain env fmt depth keyed next) :
      Plain env fmt depth keyed (node item child next)

/-- Two chains of items of the same types with the same keys, strings and integers in
the same order. -/
def Alike : Bool → Json → Json → Prop
  | _, nil, nil => True
  | keyed, node item child next, node item' child' next' =>
      item'.type = item.type ∧ (keyed = true → item'.string = item.string) ∧
        (item.type = .string → item'.valuestring = item.valuestring) ∧
        (item.type = .number → item'.valueint = item.valueint) ∧
        Alike (item.type = .object) child child' ∧ Alike keyed next next'
  | _, _, _ => False

/-- A chain behind its first item. -/
theorem Alike.link {keyed : Bool} {item : Item} {child next j next' : Json}
    (h : Alike keyed (node item child nil) j) (hnext : Alike keyed next next') :
    Alike keyed (node item child next) (linkNext next' j) := by
  cases j with
  | nil => exact h.elim
  | node item' child' below =>
      obtain ⟨htype, hkey, hstring, hint, hchild, -⟩ := h
      exact ⟨htype, hkey, hstring, hint, hchild, hnext⟩

/-- A value that gets its key. -/
theorem Alike.key {item : Item} {child j : Json} {key : Text}
    (h : Alike false (node item child nil) j) (hkey : item.string = some key) :
    Alike true (node item child nil) (setKey key j) := by
  cases j with
  | nil => exact h.elim
  | node item' child' below =>
      obtain ⟨htype, -, hstring, hint, hchild, hbelow⟩ := h
      refine ⟨htype, fun _ => hkey.symm, hstring, hint, hchild, ?_⟩
      cases below with
      | nil => trivial
      | node item' child' below => exact hbelow.elim

theorem Alike.trans {i : Json} : ∀ {keyed : Bool} {j k : Json}, Alike keyed i j →
    Alike keyed j k → Alike keyed i k := by
  induction i with
  | nil =>
      intro keyed j k h h'
      cases j with
      | nil => exact h'
      | node => exact h.elim
  | node item child next ihchild ihnext =>
      intro keyed j k h h'
      cases j with
      | nil => exact h.elim
      | node item' child' next' =>
          cases k with
          | nil => exact h'.elim
          | node item'' child'' next'' =>
              obtain ⟨htype, hkey, hstring, hint, hchild, hnext⟩ := h
              obtain ⟨htype', hkey', hstring', hint', hchild', hnext'⟩ := h'
              rw [htype] at htype' hstring' hint' hchild'
              exact ⟨htype', fun hkeyed => (hkey' hkeyed).trans (hkey hkeyed),
                fun h => (hstring' h).trans (hstring h), fun h => (hint' h).trans (hint h),
                ihchild hchild hchild', ihnext hnext hnext'⟩

/-! ## Characters behind a value -/

/-- Memory that ends a keyword and a number. -/
def Stops (m : Text) : Prop := ∃ c r, m = c :: r ∧ c ≠ 0 ∧ ¬IsNumberChar c

theorem stops_spaces {ws : Text} (hws : ∀ w ∈ ws, isSpace w = true) {m : Text} (hm : Stops m) :
    Stops (ws ++ m) := by
  cases ws with
  | nil => exact hm
  | cons w ws =>
      refine ⟨w, ws ++ m, rfl, ?_⟩
      have hw := hws w List.mem_cons_self
      unfold isSpace at hw
      unfold IsNumberChar IsDigit minus
      grind

theorem skip_cons {c : UInt8} (hc : isSpace c = false) (m : Text) : skip (c :: m) = c :: m :=
  List.dropWhile_cons_of_neg (by simp [hc])

theorem skip_spaces {ws : Text} (hws : ∀ w ∈ ws, isSpace w = true) {c : UInt8}
    (hc : isSpace c = false) (m : Text) : skip (ws ++ c :: m) = c :: m := by
  have hdrop : (ws ++ c :: m).dropWhile isSpace = (c :: m).dropWhile isSpace :=
    List.dropWhile_append_of_pos hws
  rw [skip, hdrop, ← skip, skip_cons hc]

/-- White space in front of what is skipped anyway. -/
theorem nextChar_skip {ws : Text} (hws : ∀ w ∈ ws, isSpace w = true) {c : UInt8} {m r : Text}
    (h : skip m = c :: r) : nextChar (ws ++ m) = .ok c r := by
  have hdrop : (ws ++ m).dropWhile isSpace = m.dropWhile isSpace :=
    List.dropWhile_append_of_pos hws
  rw [nextChar, skip, hdrop, ← skip, h]

theorem nextChar_spaces {ws : Text} (hws : ∀ w ∈ ws, isSpace w = true) {c : UInt8}
    (hc : isSpace c = false) (m : Text) : nextChar (ws ++ c :: m) = .ok c m :=
  nextChar_skip hws (skip_cons hc m)

theorem nextChar_cons {c : UInt8} (hc : isSpace c = false) (m : Text) :
    nextChar (c :: m) = .ok c m := by
  rw [nextChar, skip_cons hc]

/-- The text of a value starts with a character that is neither skipped nor closes. -/
def Starts (t : Text) : Prop :=
  ∃ c r, t = c :: r ∧ isSpace c = false ∧ c ≠ closeBracket ∧ c ≠ closeBrace

theorem Starts.append {t : Text} (h : Starts t) (m : Text) : Starts (t ++ m) := by
  obtain ⟨c, r, rfl, hc⟩ := h
  exact ⟨c, r ++ m, rfl, hc⟩

theorem isSpace_of_mem_singleton {c : UInt8} (hc : isSpace c = true) :
    ∀ w ∈ ([c] : Text), isSpace w = true := by
  intro w hw
  rwa [List.mem_singleton.mp hw]

/-- White space that only the formatted mode prints. -/
theorem isSpace_of_mem_ite {fmt : Bool} {ws : Text} (hws : ∀ w ∈ ws, isSpace w = true) :
    ∀ w ∈ (if fmt then ws else []), isSpace w = true := by
  cases fmt with
  | true => exact hws
  | false => exact fun w hw => absurd hw List.not_mem_nil

/-! ## Calls that return -/

/-- With enough fuel the call returns `j`. -/
def Parses (p : Nat → Outcome Json) (j : Json) (rest : Text) : Prop :=
  ∃ least, ∀ fuel ≥ least, p fuel = .ok j rest

/-- One level of the calls. -/
theorem Parses.succ {p q : Nat → Outcome Json} {j k : Json} {rest rest' : Text}
    (h : Parses p j rest) (hstep : ∀ fuel, p fuel = .ok j rest → q (fuel + 1) = .ok k rest') :
    Parses q k rest' := by
  obtain ⟨least, hleast⟩ := h
  refine ⟨least + 1, fun fuel hfuel => ?_⟩
  obtain ⟨fuel, rfl⟩ : ∃ n, fuel = n + 1 := ⟨fuel - 1, by omega⟩
  exact hstep fuel (hleast fuel (by omega))

theorem Parses.both {p q : Nat → Outcome Json} {j k : Json} {rest rest' : Text}
    (h : Parses p j rest) (h' : Parses q k rest') :
    ∃ least, ∀ fuel ≥ least, p fuel = .ok j rest ∧ q fuel = .ok k rest' := by
  obtain ⟨least, hleast⟩ := h
  obtain ⟨least', hleast'⟩ := h'
  refine ⟨max least least', fun fuel hfuel => ⟨hleast fuel ?_, hleast' fuel ?_⟩⟩
  · exact (Nat.le_max_left ..).trans hfuel
  · exact (Nat.le_max_right ..).trans hfuel

/-! ## Leaves -/

section Leaves

variable {env : Libc} {fmt : Bool} {depth : Nat} {item : Item} {texts : List (Text × Text)}

theorem printNumber_exact (h : item.valuedouble = .ofInt item.valueint)
    (hle : item.valueint.natAbs ≤ 2 ^ 53) : (printNumber env item).2 = intText item.valueint := by
  have hsame : printNumber env item = printNumber env (number64Item item.valueint) := by
    simp only [printNumber, isInteger, number64Item, h]
    rfl
  rw [hsame, printNumber_number64 env (by omega) (by omega)]

theorem valueint_exact {n : Int} (h : n.natAbs ≤ 2 ^ 53) :
    (numberItem env (intParts n)).valueint = n := by
  refine (@valueint_eq_iff env n (by omega) (by omega)).mpr ?_
  rw [nearestInt_eq_self]
  exact nearest_of_le h

theorem stringText_eq {s : Text} (h : 0 ∉ s) :
    stringText (some s) = quote :: (s.flatMap escapeChar ++ [quote]) := by
  have htake : s.takeWhile (· ≠ 0) = s := by
    rw [List.takeWhile_eq_self_iff]
    intro c hc
    have hne : c ≠ 0 := fun hzero => h (hzero ▸ hc)
    simpa using hne
  rw [stringText, Option.map_some, htake, Json.printStringPtr, List.cons_append]

/-- The text of a string is read back. -/
theorem parseString_stringText (env : Libc) {s : Text} (h : 0 ∉ s) (m : Text) :
    parseString env (stringText (some s) ++ m) = .ok s m := by
  rw [stringText_eq h, List.cons_append, List.append_assoc, List.singleton_append]
  exact (body_escape h).parseString env m

theorem IsLeaf.starts (hleaf : IsLeaf item)
    (hcurrent : Current env fmt depth item texts) :
    Starts (itemText env fmt depth item texts) := by
  rw [itemText_of_current hcurrent]
  unfold IsLeaf at hleaf
  cases htype : item.type with
  | null => exact ⟨110, _, rfl, by decide⟩
  | true => exact ⟨116, _, rfl, by decide⟩
  | false => exact ⟨102, _, rfl, by decide⟩
  | number =>
      rw [htype] at hleaf
      obtain ⟨c, r, hcr, hc⟩ := (numberText_intText item.valueint).head []
      rw [List.append_nil] at hcr
      refine ⟨c, r, (printNumber_exact hleaf.1 hleaf.2).trans hcr, ?_⟩
      unfold IsDigit at hc
      unfold isSpace
      grind
  | string =>
      rw [htype] at hleaf
      obtain ⟨s, hs, hzero⟩ := hleaf
      exact ⟨quote, s.flatMap escapeChar ++ [quote],
        by simp only [hs, stringText_eq hzero], by decide⟩
  | array => simp only [htype] at hleaf
  | object => simp only [htype] at hleaf

theorem alike_node {item' : Item} {child child' : Json} (htype : item'.type = item.type)
    (hstring : item.type = .string → item'.valuestring = item.valuestring)
    (hint : item.type = .number → item'.valueint = item.valueint)
    (hchild : Alike (item.type = .object) child child') :
    Alike false (node item child nil) (node item' child' nil) :=
  ⟨htype, nofun, hstring, hint, hchild, trivial⟩

/-- A leaf is read back. -/
theorem IsLeaf.parses (hleaf : IsLeaf item)
    (hcurrent : Current env fmt depth item texts) (m : Text)
    (hm : Stops m) : ∃ j, Parses (fun fuel => parseValue env fuel
      (itemText env fmt depth item texts ++ m)) j m ∧ Alike false (node item nil nil) j := by
  rw [itemText_of_current hcurrent]
  obtain ⟨c, r, rfl, hc, hnumber⟩ := hm
  -- one level of the calls is enough
  have hone : ∀ {t : Text} {j : Json}, (∀ fuel, parseValue env (fuel + 1) t = .ok j (c :: r)) →
      Parses (fun fuel => parseValue env fuel t) j (c :: r) := by
    intro t j h
    refine ⟨1, fun fuel hfuel => ?_⟩
    obtain ⟨fuel, rfl⟩ : ∃ n, fuel = n + 1 := ⟨fuel - 1, by omega⟩
    exact h fuel
  unfold IsLeaf at hleaf
  cases htype : item.type with
  | null =>
      refine ⟨typed .null 0, hone fun fuel => ?_, ?_⟩
      · exact parseValue_keyword env fuel (parseKeyword_null hc r)
      · exact alike_node htype.symm (fun h => nomatch htype.symm.trans h)
          (fun h => nomatch htype.symm.trans h) trivial
  | true =>
      obtain ⟨k, hkeyword⟩ := parseKeyword_bool hc true r
      refine ⟨typed .true k, hone fun fuel => parseValue_keyword env fuel hkeyword, ?_⟩
      exact alike_node htype.symm (fun h => nomatch htype.symm.trans h)
        (fun h => nomatch htype.symm.trans h) trivial
  | false =>
      obtain ⟨k, hkeyword⟩ := parseKeyword_bool hc false r
      refine ⟨typed .false k, hone fun fuel => parseValue_keyword env fuel hkeyword, ?_⟩
      exact alike_node htype.symm (fun h => nomatch htype.symm.trans h)
        (fun h => nomatch htype.symm.trans h) trivial
  | number =>
      rw [htype] at hleaf
      obtain ⟨hdouble, hle⟩ := hleaf
      refine ⟨node (numberItem env (intParts item.valueint)) nil nil, hone fun fuel => ?_, ?_⟩
      · show parseValue env (fuel + 1) ((printNumber env item).2 ++ c :: r) = _
        rw [printNumber_exact hdouble hle]
        exact parseValue_number env fuel (numberText_intText item.valueint) hnumber
      · exact alike_node htype.symm (fun h => nomatch htype.symm.trans h)
          (fun _ => valueint_exact hle) trivial
  | string =>
      rw [htype] at hleaf
      obtain ⟨s, hs, hzero⟩ := hleaf
      refine ⟨node { newItem with type := .string, valuestring := some s } nil nil,
        hone fun fuel => ?_, ?_⟩
      · show parseValue env (fuel + 1) (stringText item.valuestring ++ c :: r) = _
        have hparse := parseString_stringText env hzero (c :: r)
        rw [stringText_eq hzero, List.cons_append] at hparse
        rw [hs, stringText_eq hzero, List.cons_append, parseValue_other env fuel (by decide),
          if_pos rfl, hparse]
        rfl
      · exact alike_node htype.symm (fun _ => hs.symm)
          (fun h => nomatch htype.symm.trans h) trivial
  | array => simp only [htype] at hleaf
  | object => simp only [htype] at hleaf

end Leaves

/-! ## Chains -/

section Chains

variable {env : Libc} {fmt : Bool} {depth : Nat} {item : Item} {child next : Json}

/-- The text of a chain of children is read back by the parser of elements, or of
members. -/
def ReadBack (env : Libc) (fmt : Bool) (depth : Nat) : Bool → Json → Prop
  | false, chain => ∀ rest, ∃ j, Parses (fun fuel => parseElements env fuel
      (entriesText fmt ((chainTexts env fmt depth chain).map Prod.snd) ++ closeBracket :: rest))
      j rest ∧ Alike false chain j
  | true, chain => ∀ tabs tail rest, (∀ w ∈ tail, isSpace w = true) →
      ∃ j, Parses (fun fuel => parseMembers env fuel
        (skip (membersText fmt tabs (chainTexts env fmt depth chain) ++
          (tail ++ closeBrace :: rest)))) j rest ∧ Alike true chain j

/-- The text of an item is read back. -/
def ValueBack (env : Libc) (fmt : Bool) (depth : Nat) (item : Item) (child : Json) : Prop :=
  Starts (itemText env fmt depth item (chainTexts env fmt (depth + 1) child)) ∧
    ∀ m, Stops m → ∃ j, Parses (fun fuel => parseValue env fuel
      (itemText env fmt depth item (chainTexts env fmt (depth + 1) child) ++ m)) j m ∧
        Alike false (node item child nil) j

/-- The first text of a chain. -/
def FirstStarts (env : Libc) (fmt : Bool) (depth : Nat) : Json → Prop
  | nil => True
  | node item child _ => Starts (itemText env fmt depth item (chainTexts env fmt (depth + 1) child))

theorem stops_of_char {c : UInt8} (h : c = comma ∨ c = closeBracket ∨ c = closeBrace) (m : Text) :
    Stops (c :: m) := by
  refine ⟨c, m, rfl, ?_⟩
  rcases h with rfl | rfl | rfl <;> decide

theorem entriesText_starts (hfirst : FirstStarts env fmt depth (node item child next)) (m : Text) :
    Starts (entriesText fmt ((chainTexts env fmt depth (node item child next)).map Prod.snd)
      ++ m) := by
  have hstarts : Starts (itemText env fmt depth item (chainTexts env fmt (depth + 1) child)) :=
    hfirst
  cases next with
  | nil => exact hstarts.append m
  | node _ _ _ =>
      rw [chainTexts, chainTexts, List.map_cons, List.map_cons, entriesText]
      · exact (hstarts.append _).append m
      · exact List.cons_ne_nil _ _

/-- The elements of an array. -/
theorem ValueBack.elements (h : ValueBack env fmt depth item child)
    (hfirst : FirstStarts env fmt depth next)
    (hnext : next ≠ nil → ReadBack env fmt depth false next) :
    ReadBack env fmt depth false (node item child next) := by
  intro rest
  cases next with
  | nil =>
      obtain ⟨j, hparses, halike⟩ :=
        h.2 (closeBracket :: rest) (stops_of_char (.inr (.inl rfl)) rest)
      refine ⟨j, hparses.succ fun fuel hvalue => ?_, halike⟩
      show parseElements env (fuel + 1) (itemText env fmt depth item _ ++ closeBracket :: rest) = _
      rw [parseElements, hvalue]
      rfl
  | node item' child' next' =>
      obtain ⟨k, hparses', halike'⟩ := hnext Json.noConfusion rest
      have hstarts := entriesText_starts hfirst (closeBracket :: rest)
      generalize htexts : entriesText fmt
        ((chainTexts env fmt depth (node item' child' next')).map Prod.snd) = t' at hparses' hstarts
      obtain ⟨c, r, hcr, hc, hbracket, -⟩ := hstarts
      obtain ⟨j, hparses, halike⟩ := h.2
        (comma :: ((if fmt then [32] else []) ++ (t' ++ closeBracket :: rest)))
        (stops_of_char (.inl rfl) _)
      refine ⟨linkNext k j, ?_, halike.link halike'⟩
      obtain ⟨least, hleast⟩ := hparses.both hparses'
      refine ⟨least + 1, fun fuel hfuel => ?_⟩
      obtain ⟨fuel, rfl⟩ : ∃ n, fuel = n + 1 := ⟨fuel - 1, by omega⟩
      obtain ⟨hvalue, helements⟩ := hleast fuel (by omega)
      have hspace : ∀ w ∈ (if fmt then ([32] : Text) else []), isSpace w = true :=
        isSpace_of_mem_ite (isSpace_of_mem_singleton rfl)
      have htext : entriesText fmt
            ((chainTexts env fmt depth (node item child (node item' child' next'))).map Prod.snd)
            ++ closeBracket :: rest
          = itemText env fmt depth item (chainTexts env fmt (depth + 1) child) ++
            comma :: ((if fmt then [32] else []) ++ (t' ++ closeBracket :: rest)) := by
        rw [← htexts, chainTexts, List.map_cons, chainTexts, List.map_cons, entriesText]
        · simp only [List.append_assoc, List.cons_append]
        · exact List.cons_ne_nil _ _
      show parseElements env (fuel + 1) _ = _
      rw [htext, parseElements, hvalue]
      show (nextChar ((if fmt then [32] else []) ++ (t' ++ closeBracket :: rest))).bind _ = _
      rw [hcr, nextChar_spaces hspace hc, Outcome.bind_ok, if_neg hbracket, ← hcr, helements]
      rfl

/-- The first name of a chain. -/
def FirstKeyed : Json → Prop
  | nil => True
  | node item _ _ => ∃ key, item.string = some key ∧ 0 ∉ key

/-- What stands at the first name of the members. -/
theorem skip_membersText {key : Text} (hkey : item.string = some key) (hzero : 0 ∉ key)
    (tabs : Nat) (m : Text) :
    skip (membersText fmt tabs (chainTexts env fmt depth (node item child next)) ++ m)
      = stringText (some key) ++ (colon :: ((if fmt then [9] else []) ++
        (itemText env fmt depth item (chainTexts env fmt (depth + 1) child) ++
          ((if (chainTexts env fmt depth next).isEmpty then [] else [comma]) ++
            ((if fmt then [10] else []) ++
              (membersText fmt tabs (chainTexts env fmt depth next) ++ m)))))) := by
  have htabs : ∀ w ∈ (if fmt then List.replicate tabs (9 : UInt8) else []), isSpace w = true := by
    refine isSpace_of_mem_ite fun w hw => ?_
    rw [List.eq_of_mem_replicate hw]
    rfl
  rw [chainTexts, membersText, memberText, hkey, stringText_eq hzero]
  simp only [List.append_assoc, List.cons_append]
  exact skip_spaces htabs (by decide) _

/-- The members of an object. -/
theorem ValueBack.members (h : ValueBack env fmt depth item child)
    (hkey : ∃ key, item.string = some key ∧ 0 ∉ key) (hfirst : FirstKeyed next)
    (hnext : next ≠ nil → ReadBack env fmt depth true next) :
    ReadBack env fmt depth true (node item child next) := by
  intro tabs tail rest htail
  obtain ⟨key, hkey, hzero⟩ := hkey
  have htab : ∀ w ∈ (if fmt then ([9] : Text) else []), isSpace w = true :=
    isSpace_of_mem_ite (isSpace_of_mem_singleton rfl)
  have hline : ∀ w ∈ (if fmt then ([10] : Text) else []), isSpace w = true :=
    isSpace_of_mem_ite (isSpace_of_mem_singleton rfl)
  obtain ⟨c, r, hcr, hc, -⟩ := h.1
  have hskip : ∀ m, skip ((if fmt then [9] else []) ++
      (itemText env fmt depth item (chainTexts env fmt (depth + 1) child) ++ m))
      = itemText env fmt depth item (chainTexts env fmt (depth + 1) child) ++ m := by
    intro m
    rw [hcr]
    exact skip_spaces htab hc _
  rw [skip_membersText hkey hzero]
  cases next with
  | nil =>
      have hspaces : ∀ w ∈ (if fmt then ([10] : Text) else []) ++ tail, isSpace w = true := by
        intro w hw
        exact (List.mem_append.mp hw).elim (hline w) (htail w)
      obtain ⟨j, hparses, halike⟩ := h.2
        (((if fmt then [10] else []) ++ tail) ++ closeBrace :: rest)
        (stops_spaces hspaces (stops_of_char (.inr (.inr rfl)) rest))
      refine ⟨setKey key j, hparses.succ fun fuel hvalue => ?_, halike.key hkey⟩
      show parseMembers env (fuel + 1) (stringText (some key) ++ (colon ::
        ((if fmt then [9] else []) ++ (itemText env fmt depth item _ ++ ([] ++
          ((if fmt then [10] else []) ++ ([] ++ (tail ++ closeBrace :: rest)))))))) = _
      rw [parseMembers, parseString_stringText env hzero, Outcome.bind_ok]
      show (parseValue env fuel (skip ((if fmt then [9] else []) ++ _))).bind _ = _
      rw [List.append_assoc] at hvalue
      rw [hskip, List.nil_append, List.nil_append, hvalue, Outcome.bind_ok, ← List.append_assoc,
        nextChar_spaces hspaces (by decide)]
      rfl
  | node item' child' next' =>
      obtain ⟨key', hkey', hzero'⟩ := hfirst
      obtain ⟨k, hparses', halike'⟩ := hnext Json.noConfusion tabs tail rest htail
      -- the name of the next member
      obtain ⟨r', hname⟩ : ∃ r', skip (membersText fmt tabs
          (chainTexts env fmt depth (node item' child' next')) ++ (tail ++ closeBrace :: rest))
          = quote :: r' := by
        rw [skip_membersText hkey' hzero', stringText_eq hzero']
        exact ⟨_, rfl⟩
      generalize membersText fmt tabs (chainTexts env fmt depth (node item' child' next')) ++
        (tail ++ closeBrace :: rest) = M at hparses' hname
      have hbehind := nextChar_skip hline hname
      obtain ⟨j, hparses, halike⟩ := h.2 (comma :: ((if fmt then [10] else []) ++ M))
        (stops_of_char (.inl rfl) _)
      refine ⟨linkNext k (setKey key j), ?_, (halike.key hkey).link halike'⟩
      obtain ⟨least, hleast⟩ := hparses.both hparses'
      refine ⟨least + 1, fun fuel hfuel => ?_⟩
      obtain ⟨fuel, rfl⟩ : ∃ n, fuel = n + 1 := ⟨fuel - 1, by omega⟩
      obtain ⟨hvalue, hmembers⟩ := hleast fuel (by omega)
      rw [hname] at hmembers
      show parseMembers env (fuel + 1) (stringText (some key) ++ (colon ::
        ((if fmt then [9] else []) ++ (itemText env fmt depth item _ ++ (comma ::
          ((if fmt then [10] else []) ++ M)))))) = _
      rw [parseMembers, parseString_stringText env hzero, Outcome.bind_ok]
      show (parseValue env fuel (skip ((if fmt then [9] else []) ++ _))).bind _ = _
      rw [hskip, hvalue, Outcome.bind_ok]
      show (nextChar ((if fmt then [10] else []) ++ M)).bind _ = _
      rw [hbehind, Outcome.bind_ok, if_neg (by decide), hmembers]
      rfl

end Chains

/-! ## Trees -/

section Trees

variable {env : Libc} {fmt keyed : Bool} {depth : Nat} {item : Item} {child next : Json}

theorem Plain.key (h : Plain env fmt depth true (node item child next)) :
    ∃ key, item.string = some key ∧ 0 ∉ key := by
  cases h with
  | leaf _ hkey => exact hkey rfl
  | array _ hkey => exact hkey rfl
  | object _ hkey => exact hkey rfl

theorem Plain.firstKeyed {chain : Json} (h : Plain env fmt depth true chain) :
    FirstKeyed chain := by
  cases chain with
  | nil => trivial
  | node item child next => exact h.key

theorem arrayText_starts (entries : List Text) : Starts (arrayText fmt entries) :=
  ⟨openBracket, _, rfl, by decide⟩

theorem objectText_starts (members : List (Text × Text)) :
    Starts (objectText fmt depth members) :=
  ⟨openBrace, _, rfl, by decide⟩

theorem Plain.starts (h : Plain env fmt depth keyed (node item child next)) :
    Starts (itemText env fmt depth item (chainTexts env fmt (depth + 1) child)) := by
  cases h with
  | leaf hcurrent _ hleaf => exact hleaf.starts hcurrent
  | array hcurrent _ htype =>
      rw [itemText_of_current hcurrent, htype]
      exact arrayText_starts _
  | object hcurrent _ htype =>
      rw [itemText_of_current hcurrent, htype]
      exact objectText_starts _

theorem Plain.firstStarts {chain : Json} (h : Plain env fmt depth keyed chain) :
    FirstStarts env fmt depth chain := by
  cases chain with
  | nil => trivial
  | node item child next => exact h.starts

/-- A container, given that its children are read back. -/
theorem alike_container {type : JsonType} {child' : Json} (htype : item.type = type)
    (hcontainer : type = .array ∨ type = .object) (halike : Alike (type = .object) child child') :
    Alike false (node item child nil) (node { newItem with type } child' nil) := by
  have hother : ∀ {other : JsonType}, other = .string ∨ other = .number → item.type ≠ other := by
    intro other h heq
    rw [htype] at heq
    rcases hcontainer with rfl | rfl <;> rcases h with rfl | rfl <;> cases heq
  refine alike_node htype.symm (fun h => absurd h (hother (.inl rfl)))
    (fun h => absurd h (hother (.inr rfl))) ?_
  rwa [htype]

theorem array_parses (htype : item.type = .array) (hchild : Plain env fmt depth false child)
    (hback : child ≠ nil → ReadBack env fmt depth false child) (m : Text) :
    ∃ j, Parses (fun fuel => parseValue env fuel
      (arrayText fmt ((chainTexts env fmt depth child).map Prod.snd) ++ m)) j m ∧
        Alike false (node item child nil) j := by
  have hvalue : ∀ fuel t, parseValue env (fuel + 1) (openBracket :: t) = parseArray env fuel t := by
    intro fuel t
    rw [parseValue_other env fuel (by decide)]
    rfl
  cases child with
  | nil =>
      refine ⟨node { newItem with type := .array } nil nil, ⟨2, fun fuel hfuel => ?_⟩,
        alike_container htype (.inl rfl) trivial⟩
      obtain ⟨fuel, rfl⟩ : ∃ n, fuel = n + 2 := ⟨fuel - 2, by omega⟩
      exact hvalue (fuel + 1) _
  | node item' child' next' =>
      obtain ⟨j, hparses, halike⟩ := hback Json.noConfusion m
      obtain ⟨c, r, hcr, hc, hbracket, -⟩ :=
        @entriesText_starts env fmt depth item' child' next' hchild.starts (closeBracket :: m)
      refine ⟨_, ?_, alike_container htype (.inl rfl) halike⟩
      refine (hparses.succ fun fuel helements => ?_).succ fun fuel h => (hvalue fuel _).trans h
      show parseArray env (fuel + 1) ((_ ++ [closeBracket]) ++ m) = _
      rw [List.append_assoc, List.singleton_append, parseArray, hcr,
        nextChar_cons hc, Outcome.bind_ok, if_neg hbracket, ← hcr, helements]
      rfl

theorem object_parses (htype : item.type = .object) (hchild : Plain env fmt (depth + 1) true child)
    (hback : child ≠ nil → ReadBack env fmt (depth + 1) true child) (m : Text) :
    ∃ j, Parses (fun fuel => parseValue env fuel
      (objectText fmt (depth + 1) (chainTexts env fmt (depth + 1) child) ++ m)) j m ∧
        Alike false (node item child nil) j := by
  have hvalue : ∀ fuel t, parseValue env (fuel + 1) (openBrace :: t) = parseObject env fuel t := by
    intro fuel t
    rw [parseValue_other env fuel (by decide)]
    rfl
  have hline : ∀ w ∈ (if fmt then ([10] : Text) else []), isSpace w = true :=
    isSpace_of_mem_ite (isSpace_of_mem_singleton rfl)
  have htail : ∀ w ∈ (if fmt then List.replicate depth (9 : UInt8) else []), isSpace w = true := by
    refine isSpace_of_mem_ite fun w hw => ?_
    rw [List.eq_of_mem_replicate hw]
    rfl
  cases child with
  | nil =>
      refine ⟨node { newItem with type := .object } nil nil, ⟨2, fun fuel hfuel => ?_⟩,
        alike_container htype (.inr rfl) trivial⟩
      obtain ⟨fuel, rfl⟩ : ∃ n, fuel = n + 2 := ⟨fuel - 2, by omega⟩
      refine (hvalue (fuel + 1) _).trans ?_
      have hspaces : ∀ w ∈ (if fmt then ([10] : Text) else []) ++
          (if fmt then List.replicate depth (9 : UInt8) else []), isSpace w = true := by
        intro w hw
        exact (List.mem_append.mp hw).elim (hline w) (htail w)
      show parseObject env (fuel + 1) (((if fmt then [10] else []) ++ ([] ++
        ((if fmt then List.replicate depth 9 else []) ++ [closeBrace]))) ++ m) = _
      rw [List.nil_append, ← List.append_assoc, List.append_assoc _ [closeBrace],
        List.singleton_append, parseObject, nextChar_spaces hspaces (by decide)]
      rfl
  | node item' child' next' =>
      obtain ⟨key, hkey, hzero⟩ := hchild.key
      obtain ⟨j, hparses, halike⟩ := hback Json.noConfusion (depth + 1) _ m htail
      obtain ⟨r, hname⟩ : ∃ r, skip (membersText fmt (depth + 1)
          (chainTexts env fmt (depth + 1) (node item' child' next')) ++
            ((if fmt then List.replicate depth 9 else []) ++ closeBrace :: m)) = quote :: r := by
        rw [skip_membersText hkey hzero, stringText_eq hzero]
        exact ⟨_, rfl⟩
      refine ⟨_, ?_, alike_container htype (.inr rfl) halike⟩
      refine (hparses.succ fun fuel hmembers => ?_).succ fun fuel h => (hvalue fuel _).trans h
      rw [hname] at hmembers
      show parseObject env (fuel + 1) (((if fmt then [10] else []) ++ (_ ++
        ((if fmt then List.replicate depth 9 else []) ++ [closeBrace]))) ++ m) = _
      rw [List.append_assoc, List.append_assoc, List.append_assoc, List.singleton_append,
        parseObject, nextChar_skip hline hname, Outcome.bind_ok, if_neg (by decide), hmembers]
      rfl

theorem ValueBack.array
    (hcurrent : Current env fmt depth item (chainTexts env fmt (depth + 1) child))
    (htype : item.type = .array) (hchild : Plain env fmt (depth + 1) false child)
    (hback : child ≠ Json.nil → ReadBack env fmt (depth + 1) false child) :
    ValueBack env fmt depth item child := by
  rw [ValueBack, itemText_of_current hcurrent, htype]
  exact ⟨arrayText_starts _, fun m _ => array_parses htype hchild hback m⟩

theorem ValueBack.object
    (hcurrent : Current env fmt depth item (chainTexts env fmt (depth + 1) child))
    (htype : item.type = .object) (hchild : Plain env fmt (depth + 1) true child)
    (hback : child ≠ Json.nil → ReadBack env fmt (depth + 1) true child) :
    ValueBack env fmt depth item child := by
  rw [ValueBack, itemText_of_current hcurrent, htype]
  exact ⟨objectText_starts _, fun m _ => object_parses htype hchild hback m⟩

/-- One item more in front of a chain. -/
theorem ReadBack.link (h : ValueBack env fmt depth item child)
    (hkey : keyed = true → ∃ key, item.string = some key ∧ 0 ∉ key)
    (hplain : Plain env fmt depth keyed next)
    (hnext : next ≠ Json.nil → ReadBack env fmt depth keyed next) :
    ReadBack env fmt depth keyed (node item child next) := by
  cases keyed with
  | false => exact h.elements hplain.firstStarts hnext
  | true => exact h.members (hkey rfl) hplain.firstKeyed hnext

/-- Printed chains are read back, from the leaves up. -/
theorem Plain.readBack {chain : Json} (h : Plain env fmt depth keyed chain) :
    chain ≠ Json.nil → ReadBack env fmt depth keyed chain := by
  induction h with
  | nil => exact absurd rfl
  | leaf hcurrent hkey hleaf hnext ihnext =>
      intro _
      have hvalue : ValueBack env fmt _ _ Json.nil :=
        ⟨hleaf.starts hcurrent, fun m hm => hleaf.parses hcurrent m hm⟩
      exact ReadBack.link hvalue hkey hnext ihnext
  | array hcurrent hkey htype hchild hnext ihchild ihnext =>
      intro _
      exact ReadBack.link (.array hcurrent htype hchild ihchild) hkey hnext ihnext
  | object hcurrent hkey htype hchild hnext ihchild ihnext =>
      intro _
      exact ReadBack.link (.object hcurrent htype hchild ihchild) hkey hnext ihnext

/-- A printed array or object is read back, whatever stands behind it. -/
theorem Plain.parses (h : Plain env fmt depth keyed (node item child next))
    (hnested : Nested item) (m : Text) :
    ∃ j, Parses (fun fuel => parseValue env fuel
      (itemText env fmt depth item (chainTexts env fmt (depth + 1) child) ++ m)) j m ∧
        Alike false (node item child Json.nil) j := by
  cases h with
  | leaf _ _ hleaf =>
      unfold IsLeaf at hleaf
      rcases hnested with htype | htype <;> rw [htype] at hleaf <;> exact hleaf.elim
  | array hcurrent _ htype hchild =>
      rw [itemText_of_current hcurrent, htype]
      exact array_parses htype hchild hchild.readBack m
  | object hcurrent _ htype hchild =>
      rw [itemText_of_current hcurrent, htype]
      exact object_parses htype hchild hchild.readBack m

end Trees

/-! ## The round trip -/

/-- The tree is printed, and `json_parse` reads the text as a tree like it. -/
def RoundTrips (env : Libc) (fmt : Bool) (tree : Json) : Prop :=
  ∃ t, (printValue env unlimited fmt tree).1 = .text t ∧
    ∀ z, ∃ j, jsonParse env (t ++ 0 :: z) = .ok j (0 :: z) ∧ Alike false tree j

section RoundTrip

variable {env : Libc} {fmt : Bool} {item : Item} {child : Json}

theorem jsonParse_valueText (h : Plain env fmt 0 false (node item child nil))
    (hroot : Nested item) (m : Text) :
    ∃ j, jsonParse env (valueText env fmt (node item child nil) ++ m) = .ok j m ∧
      Alike false (node item child nil) j := by
  obtain ⟨j, ⟨least, hleast⟩, halike⟩ := h.parses hroot m
  refine ⟨j, ?_, halike⟩
  obtain ⟨c, r, hcr, hc, -⟩ := (@Plain.starts env fmt false 0 item child nil h).append m
  show jsonParseStream env (itemText env fmt 0 item _ ++ m) = _
  rw [← jsonParseStream_fuel env _ (Nat.le_max_right least _), hcr,
    skip_cons hc, ← hcr]
  exact hleast _ (Nat.le_max_left ..)

/-- A tree whose root is an array or an object comes back exactly if the lengths that
the printer computes fit an `int`. -/
theorem roundTrips_iff (htree : Plain env fmt 0 false (node item child nil))
    (hroot : Nested item) :
    RoundTrips env fmt (node item child nil) ↔ Fits env fmt (node item child nil) := by
  constructor
  · rintro ⟨t, hprint, -⟩
    apply fits_of_printValue
    rw [hprint]
    exact Printed.noConfusion
  · intro hfits
    have hprint :=
      (printValue_eq hfits unlimited).resolve_left (printValue_ne_null Json.noConfusion)
    exact ⟨_, hprint, fun z => jsonParse_valueText htree hroot (0 :: z)⟩

/-- `{"a":[null,"\u0001",-5]}` in the formatted mode. -/
theorem roundTrips_iff_nested :
    RoundTrips default true
        (node { newItem with type := .object }
          (node { newItem with type := .array, string := some [97] }
            (node { newItem with type := .null }
              nil
              (node { newItem with type := .string, valuestring := some [1] }
                nil
                (node { newItem with type := .number, valueint := -5, valuedouble := .ofInt (-5) }
                  nil nil)))
            nil)
          nil) := by
  refine (roundTrips_iff ?_ (.inr rfl)).mpr (fits_of_printValue (by decide +kernel))
  refine .object (current_of_fresh rfl) Bool.noConfusion rfl ?_ .nil
  refine .array (current_of_fresh rfl) (fun _ => ⟨[97], rfl, by decide⟩) rfl ?_ .nil
  refine .leaf (current_of_fresh rfl) Bool.noConfusion trivial ?_
  refine .leaf (current_of_fresh rfl) Bool.noConfusion ⟨[1], rfl, by decide⟩ ?_
  exact .leaf (current_of_fresh rfl) Bool.noConfusion ⟨rfl, by decide⟩ .nil

/-- The length of the string in this array wraps. -/
theorem not_roundTrips :
    ¬∀ (env : Libc) (fmt : Bool) (item : Item) (child : Json),
      Plain env fmt 0 false (node item child nil) → Nested item →
        RoundTrips env fmt (node item child nil) := by
  intro h
  have hleaf : IsLeaf
      { newItem with type := .string, valuestring := some (.replicate 715827883 1) } := by
    refine ⟨_, rfl, fun hzero => ?_⟩
    have hone := List.eq_of_mem_replicate hzero
    cases hone
  obtain ⟨t, hprint, -⟩ := h default false { newItem with type := .array }
    (node { newItem with type := .string, valuestring := some (.replicate 715827883 1) } nil nil)
    (.array (current_of_fresh rfl) Bool.noConfusion rfl
      (.leaf (current_of_fresh rfl) Bool.noConfusion hleaf .nil) .nil) (.inl rfl)
  have hfits := fits_of_printValue (by rw [hprint]; exact Printed.noConfusion)
  have hlength := ((hfits.1 rfl).2 (.inl rfl)).1 rfl
  have hstring : (stringText (some (.replicate 715827883 1))).length + 1 < 2 ^ 31 := hlength.1
  rw [stringText_replicate] at hstring
  omega

end RoundTrip

end Libubox.Json
