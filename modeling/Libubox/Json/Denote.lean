import Libubox.Json.PrintParse

/-!
# Texts and what they are read as

`Denotes t j` says that `parse_value` reads the text `t` as `j` wherever something stands
behind it that ends it.  What a text denotes comes from its parts as the grammar puts them
together, with white space between the tokens; nothing is said about who wrote it.
-/

namespace Libubox.Json

open Decimal

/-- The text is read as `j`, up to what ends it. -/
structure Denotes (env : Libc) (t : Text) (j : Json) : Prop where
  starts : Starts t
  parses : ∀ m, Stops m → Parses (fun fuel => parseValue env fuel (t ++ m)) j m

/-- A text that is closed is read whatever stands behind it. -/
structure Encloses (env : Libc) (t : Text) (j : Json) : Prop where
  starts : Starts t
  parses : ∀ m, Parses (fun fuel => parseValue env fuel (t ++ m)) j m

/-- The elements of an array, up to its bracket. -/
structure DenotesElements (env : Libc) (t : Text) (j : Json) : Prop where
  starts : Starts t
  parses : ∀ m, Parses (fun fuel => parseElements env fuel (t ++ closeBracket :: m)) j m

/-- The members of an object, up to its brace. -/
structure DenotesMembers (env : Libc) (t : Text) (j : Json) : Prop where
  starts : ∃ r, t = quote :: r
  parses : ∀ m, Parses (fun fuel => parseMembers env fuel (t ++ closeBrace :: m)) j m

variable {env : Libc} {t t' b key ws ws' : Text} {j k : Json}

theorem Encloses.denotes (h : Encloses env t j) : Denotes env t j :=
  ⟨h.starts, fun m _ => h.parses m⟩

/-- A closed text at the root. -/
theorem Encloses.jsonParse (h : Encloses env t j) (m : Text) :
    Json.jsonParse env (t ++ m) = .ok j m := by
  obtain ⟨least, hleast⟩ := h.parses m
  obtain ⟨c, r, hcr, hc, -⟩ := h.starts.append m
  rw [hcr] at hleast
  show jsonParseStream env (t ++ m) = _
  rw [hcr, ← jsonParseStream_fuel env _ (Nat.le_max_right least _), skip_cons hc]
  exact hleast _ (Nat.le_max_left ..)

/-- One level of the calls is enough. -/
theorem parses_of_succ {p : Nat → Outcome Json} {m : Text} (h : ∀ fuel, p (fuel + 1) = .ok j m) :
    Parses p j m := by
  refine ⟨1, fun fuel hfuel => ?_⟩
  obtain ⟨fuel, rfl⟩ : ∃ n, fuel = n + 1 := ⟨fuel - 1, by omega⟩
  exact h fuel

/-! ## Values without children -/

theorem denotes_null (env : Libc) : Denotes env nullText (typed .null 0) := by
  refine ⟨⟨110, _, rfl, by decide⟩, fun m hm => parses_of_succ fun fuel => ?_⟩
  obtain ⟨c, r, rfl, hc, -⟩ := hm
  exact parseValue_keyword env fuel (parseKeyword_null hc r)

theorem denotes_bool (env : Libc) (b : Bool) :
    Denotes env (boolText b) (typed (if b then .true else .false) (if b then 1 else 0)) := by
  constructor
  · cases b with
    | true => exact ⟨116, _, rfl, by decide⟩
    | false => exact ⟨102, _, rfl, by decide⟩
  · intro m hm
    refine parses_of_succ fun fuel => ?_
    obtain ⟨c, r, rfl, hc, -⟩ := hm
    apply parseValue_keyword
    cases b with
    | true => simp [parseKeyword, streamCmp, boolText, hc]
    | false => simp [parseKeyword, streamCmp, boolText, hc]

theorem denotes_int (env : Libc) (n : Int) :
    Denotes env (intText n) (node (numberItem env (intParts n)) nil nil) := by
  constructor
  · obtain ⟨c, r, hcr, hc⟩ := (numberText_intText n).head []
    rw [List.append_nil] at hcr
    refine ⟨c, r, hcr, ?_⟩
    unfold IsDigit at hc
    unfold isSpace
    grind
  · intro m hm
    obtain ⟨c, r, rfl, -, hc⟩ := hm
    exact parses_of_succ fun fuel => parseValue_number env fuel (numberText_intText n) hc

theorem denotes_string (env : Libc) (h : Body joined b key) :
    Denotes env (quote :: (b ++ [quote]))
      (node { newItem with type := .string, valuestring := some key } nil nil) := by
  refine ⟨⟨quote, _, rfl, by decide⟩, fun m _ => parses_of_succ fun fuel => ?_⟩
  have hparse := h.parseString env m
  show parseValue env (fuel + 1) (quote :: ((b ++ [quote]) ++ m)) = _
  rw [List.append_assoc, List.singleton_append, parseValue_other env fuel (by decide), if_pos rfl,
    hparse]
  rfl

/-! ## Arrays -/

/-- The last element, and white space behind it. -/
theorem Denotes.lastElement (h : Denotes env t j) (hws : ∀ w ∈ ws, isSpace w = true) :
    DenotesElements env (t ++ ws) j := by
  refine ⟨h.starts.append ws, fun m => ?_⟩
  have hparses := h.parses (ws ++ closeBracket :: m)
    (stops_spaces hws (stops_of_char (.inr (.inl rfl)) m))
  refine hparses.succ fun fuel hvalue => ?_
  rw [parseElements, List.append_assoc, hvalue, Outcome.bind_ok, nextChar_spaces hws (by decide)]
  rfl

/-- One element more in front. -/
theorem Denotes.element (h : Denotes env t j) (hws : ∀ w ∈ ws, isSpace w = true)
    (hnext : DenotesElements env t' k) :
    DenotesElements env (t ++ comma :: (ws ++ t')) (linkNext k j) := by
  refine ⟨h.starts.append _, fun m => ?_⟩
  obtain ⟨c, r, hcr, hc, hbracket, -⟩ := hnext.starts.append (closeBracket :: m)
  obtain ⟨least, hleast⟩ :=
    (h.parses (comma :: (ws ++ (t' ++ closeBracket :: m))) (stops_of_char (.inl rfl) _)).both
      (hnext.parses m)
  refine ⟨least + 1, fun fuel hfuel => ?_⟩
  obtain ⟨fuel, rfl⟩ : ∃ n, fuel = n + 1 := ⟨fuel - 1, by omega⟩
  obtain ⟨hvalue, helements⟩ := hleast fuel (by omega)
  rw [hcr] at hvalue helements
  simp only [List.append_assoc, List.cons_append]
  rw [parseElements, hcr, hvalue, Outcome.bind_ok, nextChar_cons (by decide), Outcome.bind_ok,
    if_pos rfl, nextChar_spaces hws hc, Outcome.bind_ok, if_neg hbracket, helements]
  rfl

theorem parseValue_array (env : Libc) (fuel : Nat) (m : Text) :
    parseValue env (fuel + 1) (openBracket :: m) = parseArray env fuel m := by
  rw [parseValue_other env fuel (by decide)]
  rfl

theorem DenotesElements.array (h : DenotesElements env t j) (hws : ∀ w ∈ ws, isSpace w = true) :
    Encloses env (openBracket :: (ws ++ (t ++ [closeBracket])))
      (node { newItem with type := .array } j nil) := by
  refine ⟨⟨openBracket, _, rfl, by decide⟩, fun m => ?_⟩
  obtain ⟨c, r, hcr, hc, hbracket, -⟩ := h.starts.append (closeBracket :: m)
  have harray : Parses (fun fuel => parseArray env fuel (ws ++ (t ++ closeBracket :: m)))
      (node { newItem with type := .array } j nil) m := by
    refine (h.parses m).succ fun fuel helements => ?_
    rw [hcr] at helements ⊢
    rw [parseArray, nextChar_spaces hws hc, Outcome.bind_ok, if_neg hbracket, helements]
    rfl
  refine harray.succ fun fuel hrun => ?_
  rw [← hrun]
  simp only [List.cons_append, List.append_assoc]
  exact parseValue_array env fuel _

theorem encloses_emptyArray (env : Libc) (hws : ∀ w ∈ ws, isSpace w = true) :
    Encloses env (openBracket :: (ws ++ [closeBracket]))
      (node { newItem with type := .array } nil nil) := by
  refine ⟨⟨openBracket, _, rfl, by decide⟩, fun m => ⟨2, fun fuel hfuel => ?_⟩⟩
  obtain ⟨fuel, rfl⟩ : ∃ n, fuel = n + 2 := ⟨fuel - 2, by omega⟩
  simp only [List.cons_append, List.append_assoc]
  rw [parseValue_array, parseArray, nextChar_spaces hws (by decide), Outcome.bind_ok, if_pos rfl]
  rfl

/-! ## Objects -/

/-- The name of a member and its value. -/
theorem parseMembers_member (hkey : Body joined b key) (h : Denotes env t j)
    (hws : ∀ w ∈ ws, isSpace w = true) (fuel : Nat) (m : Text) :
    parseMembers env (fuel + 1) (quote :: (b ++ quote :: colon :: (ws ++ (t ++ m))))
      = (parseValue env fuel (t ++ m)).bind fun child m =>
          (nextChar m).bind fun c m =>
            if c = comma then
              (nextChar m).bind fun c m =>
                if c = closeBrace then .ok (setKey key child) m
                else
                  (parseMembers env fuel (c :: m)).bind fun next rest =>
                    .ok (linkNext next (setKey key child)) rest
            else if c = closeBrace then .ok (setKey key child) m
            else .null (c :: m) := by
  obtain ⟨c, r, hcr, hc, -⟩ := h.starts.append m
  rw [parseMembers, hkey.parseString, Outcome.bind_ok, nextChar_cons (by decide), Outcome.bind_ok,
    if_neg (by decide), hcr, skip_spaces hws hc]

/-- The last member, and white space behind it. -/
theorem Denotes.lastMember (hkey : Body joined b key) (h : Denotes env t j)
    (hws : ∀ w ∈ ws, isSpace w = true) (hws' : ∀ w ∈ ws', isSpace w = true) :
    DenotesMembers env (quote :: (b ++ quote :: colon :: (ws ++ (t ++ ws')))) (setKey key j) := by
  refine ⟨⟨_, rfl⟩, fun m => ?_⟩
  have hparses := h.parses (ws' ++ closeBrace :: m)
    (stops_spaces hws' (stops_of_char (.inr (.inr rfl)) m))
  refine hparses.succ fun fuel hvalue => ?_
  simp only [List.append_assoc, List.cons_append]
  rw [parseMembers_member hkey h hws, hvalue, Outcome.bind_ok, nextChar_spaces hws' (by decide)]
  rfl

/-- One member more in front. -/
theorem Denotes.member (hkey : Body joined b key) (h : Denotes env t j)
    (hws : ∀ w ∈ ws, isSpace w = true) (hws' : ∀ w ∈ ws', isSpace w = true)
    (hnext : DenotesMembers env t' k) :
    DenotesMembers env (quote :: (b ++ quote :: colon :: (ws ++ (t ++ comma :: (ws' ++ t')))))
      (linkNext k (setKey key j)) := by
  refine ⟨⟨_, rfl⟩, fun m => ?_⟩
  obtain ⟨r, rfl⟩ := hnext.starts
  obtain ⟨least, hleast⟩ :=
    (h.parses (comma :: (ws' ++ (quote :: r ++ closeBrace :: m))) (stops_of_char (.inl rfl) _)).both
      (hnext.parses m)
  refine ⟨least + 1, fun fuel hfuel => ?_⟩
  obtain ⟨fuel, rfl⟩ : ∃ n, fuel = n + 1 := ⟨fuel - 1, by omega⟩
  obtain ⟨hvalue, hmembers⟩ := hleast fuel (by omega)
  simp only [List.append_assoc, List.cons_append] at hvalue hmembers ⊢
  rw [parseMembers_member hkey h hws, hvalue, Outcome.bind_ok, nextChar_cons (by decide),
    Outcome.bind_ok, if_pos rfl, nextChar_spaces hws' (by decide), Outcome.bind_ok,
    if_neg (by decide), hmembers]
  rfl

theorem parseValue_object (env : Libc) (fuel : Nat) (m : Text) :
    parseValue env (fuel + 1) (openBrace :: m) = parseObject env fuel m := by
  rw [parseValue_other env fuel (by decide)]
  rfl

theorem DenotesMembers.object (h : DenotesMembers env t j) (hws : ∀ w ∈ ws, isSpace w = true) :
    Encloses env (openBrace :: (ws ++ (t ++ [closeBrace])))
      (node { newItem with type := .object } j nil) := by
  refine ⟨⟨openBrace, _, rfl, by decide⟩, fun m => ?_⟩
  obtain ⟨r, rfl⟩ := h.starts
  have hobject : Parses (fun fuel => parseObject env fuel (ws ++ (quote :: r ++ closeBrace :: m)))
      (node { newItem with type := .object } j nil) m := by
    refine (h.parses m).succ fun fuel hmembers => ?_
    simp only [List.cons_append] at hmembers ⊢
    rw [parseObject, nextChar_spaces hws (by decide), Outcome.bind_ok, if_neg (by decide), hmembers]
    rfl
  refine hobject.succ fun fuel hrun => ?_
  rw [← hrun]
  simp only [List.cons_append, List.append_assoc]
  exact parseValue_object env fuel _

theorem encloses_emptyObject (env : Libc) (hws : ∀ w ∈ ws, isSpace w = true) :
    Encloses env (openBrace :: (ws ++ [closeBrace]))
      (node { newItem with type := .object } nil nil) := by
  refine ⟨⟨openBrace, _, rfl, by decide⟩, fun m => ⟨2, fun fuel hfuel => ?_⟩⟩
  obtain ⟨fuel, rfl⟩ : ∃ n, fuel = n + 2 := ⟨fuel - 2, by omega⟩
  simp only [List.cons_append, List.append_assoc]
  rw [parseValue_object, parseObject, nextChar_spaces hws (by decide), Outcome.bind_ok, if_pos rfl]
  rfl

end Libubox.Json
