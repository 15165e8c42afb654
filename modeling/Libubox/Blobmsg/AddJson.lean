import Libubox.Blobmsg.ReadBack

/-!
# JSON documents as messages

`blobmsg_add_json_from_string` and what it calls.  A document comes to calls of the API, up
to its first null (`asCalls`): the conversion reports success exactly if there is none, and
whether it does or not, the buffer holds a message of all that stands in front of the null
(`blobmsgAddJson_holds`).  A document without nulls is rendered again as a text that
`json_parse` reads as that document, but for its numbers: these are cut to the 32 bits of
their integers (`blobmsgAddJson_read`).
-/

namespace Libubox.Blobmsg

open Bytes Blob Json

/-! ## The source -/

/-- What `strlen` sees of a string. -/
def cText (s : Text) : Text := s.takeWhile (· ≠ 0)

/-- A table or an array, with `object` for `blobmsg_add_object` in it.  Closing it with the
null pointer for a cookie is a fault. -/
def addNested (object : BlobBuf → Option (Bool × BlobBuf)) (b : BlobBuf) (name : Option Mem)
    (array : Bool) : Option (Bool × BlobBuf) :=
  (blobmsgOpenNested b name array).bind fun (cookie, b) =>
    cookie.bind fun cookie =>
      (object b).bind fun (ret, b) => (blobNestEnd b cookie).map fun b => (ret, b)

/-- `blobmsg_add_json_element`.  What the functions that add a field return is not looked
at. -/
def blobmsgAddJsonElement (object : BlobBuf → Option (Bool × BlobBuf)) (b : BlobBuf)
    (name : Option Mem) (item : Item) : Option (Bool × BlobBuf) :=
  match item.type with
  | .object => addNested object b name false
  | .array => addNested object b name true
  | .string =>
      item.valuestring.bind fun s => (blobmsgAddString b name (cText s)).map fun r => (true, r.2)
  | .true => (blobmsgAddU8 b name 1).map fun r => (true, r.2)
  | .false => (blobmsgAddU8 b name 0).map fun r => (true, r.2)
  | .number =>
      (blobmsgAddU32 b name (UInt32.ofNat (item.valueint % 2 ^ 32).toNat)).map fun r => (true, r.2)
  | .null => some (false, b)

/-- `blobmsg_add_object` of a node with these children. -/
def blobmsgAddObject : Json → BlobBuf → Option (Bool × BlobBuf)
  | .nil, b => some (true, b)
  | .node item child next, b =>
      (blobmsgAddJsonElement (blobmsgAddObject child) b (item.string.map cText) item).bind
        fun (ok, b) => if ok then blobmsgAddObject next b else some (false, b)

/-- `__blobmsg_add_json`. -/
def blobmsgAddJson (b : BlobBuf) : Json → Option (Bool × BlobBuf)
  | .nil => some (false, b)
  | .node item child _ =>
      if item.type ≠ .object then some (false, b) else blobmsgAddObject child b

/-- `blobmsg_add_json_from_string`. -/
def blobmsgAddJsonFromString (env : Libc) (b : BlobBuf) (str : Text) : Option (Bool × BlobBuf) :=
  match jsonParse env str with
  | .ok obj _ => blobmsgAddJson b obj
  | .null _ => blobmsgAddJson b .nil
  | .fault => none

/-! ## The calls -/

/-- The call for an item that is no container; null has none. -/
def fieldOf (item : Item) : Option Field :=
  let name := item.string.map cText
  match item.type with
  | .string => some (.string name (cText (item.valuestring.getD [])))
  | .true => some (.u8 name 1)
  | .false => some (.u8 name 0)
  | .number => some (.u32 name (UInt32.ofNat (item.valueint % 2 ^ 32).toNat))
  | .null | .object | .array => none

/-- The calls that a chain comes to, up to its first null, and whether there is none. -/
def asCalls : Json → Calls × Bool
  | .nil => (.done, true)
  | .node item child next =>
      if item.type = .object ∨ item.type = .array then
        (.nest (item.string.map cText) (decide (item.type = .array)) (asCalls child).1
          (if (asCalls child).2 then (asCalls next).1 else .done),
          (asCalls child).2 && (asCalls next).2)
      else
        match fieldOf item with
        | some field => (.add field (asCalls next).1, (asCalls next).2)
        | none => (.done, false)

/-- Names and strings are C strings, names have 16-bit lengths, and only containers have
children. -/
def Storable : Json → Prop
  | .nil => True
  | .node item child next =>
      (∀ key, item.string = some key → 0 ∉ key ∧ key.length < 2 ^ 16) ∧
        (item.type = .string → ∃ s, item.valuestring = some s ∧ 0 ∉ s) ∧
        (item.type ≠ .object → item.type ≠ .array → child = .nil) ∧ Storable child ∧ Storable next

theorem cText_eq {s : Text} (h : 0 ∉ s) : cText s = s := by
  rw [cText, List.takeWhile_eq_self_iff]
  intro c hc
  have hne : c ≠ 0 := fun hzero => h (hzero ▸ hc)
  simpa using hne

theorem zero_not_mem_cText (s : Text) : 0 ∉ cText s := by
  intro h
  simpa using List.mem_takeWhile_imp h

theorem type_of_fieldOf {item : Item} (hfield : fieldOf item = none)
    (hobject : item.type ≠ .object) (harray : item.type ≠ .array) : item.type = .null := by
  unfold fieldOf at hfield
  cases htype : item.type with
  | null => rfl
  | object => exact absurd htype hobject
  | array => exact absurd htype harray
  | _ =>
      rw [htype] at hfield
      cases hfield

/-- The element of a field is what is added. -/
theorem blobmsgAddJsonElement_field {b b' : BlobBuf} {item : Item} {field : Field}
    (hfield : fieldOf item = some field) (hrun : field.run b = some (true, b'))
    (hstring : item.type = .string → ∃ s, item.valuestring = some s ∧ 0 ∉ s)
    (object : BlobBuf → Option (Bool × BlobBuf)) :
    blobmsgAddJsonElement object b (item.string.map cText) item = some (true, b') := by
  unfold fieldOf at hfield
  unfold blobmsgAddJsonElement
  cases htype : item.type with
  | string =>
      obtain ⟨s, hs, -⟩ := hstring htype
      rw [htype, hs] at hfield
      cases hfield
      have hadd : blobmsgAddString b (item.string.map cText) (cText s) = some (true, b') := hrun
      simp only [hs, Option.bind_some, hadd, Option.map_some]
  | true =>
      rw [htype] at hfield
      cases hfield
      have hadd : blobmsgAddU8 b (item.string.map cText) 1 = some (true, b') := hrun
      simp only [hadd, Option.map_some]
  | false =>
      rw [htype] at hfield
      cases hfield
      have hadd : blobmsgAddU8 b (item.string.map cText) 0 = some (true, b') := hrun
      simp only [hadd, Option.map_some]
  | number =>
      rw [htype] at hfield
      cases hfield
      have hadd : blobmsgAddU32 b (item.string.map cText)
          (UInt32.ofNat (item.valueint % 2 ^ 32).toNat) = some (true, b') := hrun
      simp only [hadd, Option.map_some]
  | null =>
      rw [htype] at hfield
      cases hfield
  | object =>
      rw [htype] at hfield
      cases hfield
  | array =>
      rw [htype] at hfield
      cases hfield

theorem runCalls_nest {b b' : BlobBuf} {name : Option Mem} {array : Bool} {body next : Calls}
    (h : runCalls b (.nest name array body next) = some b') :
    ∃ cookie b₁ b₂ b₃, blobmsgOpenNested b name array = some (some cookie, b₁) ∧
      runCalls b₁ body = some b₂ ∧ blobNestEnd b₂ cookie = some b₃ ∧
        runCalls b₃ next = some b' := by
  rw [runCalls] at h
  obtain ⟨⟨cookie, b₁⟩, hopen, h⟩ := Option.bind_eq_some_iff.mp h
  simp only at h
  obtain ⟨start, hcookie, h⟩ := Option.bind_eq_some_iff.mp h
  obtain ⟨b₂, hbody, h⟩ := Option.bind_eq_some_iff.mp h
  obtain ⟨b₃, hclose, h⟩ := Option.bind_eq_some_iff.mp h
  exact ⟨start, b₁, b₂, b₃, hcookie ▸ hopen, hbody, hclose, h⟩

/-- **Adding a chain is making its calls.** -/
theorem blobmsgAddObject_calls (chain : Json) : ∀ {b b' : BlobBuf}, Storable chain →
    runCalls b (asCalls chain).1 = some b' →
    blobmsgAddObject chain b = some ((asCalls chain).2, b') := by
  induction chain with
  | nil =>
      intro b b' _ hrun
      cases hrun
      rfl
  | node item child next ihchild ihnext =>
      intro b b' hstore hrun
      obtain ⟨-, hstring, -, hchild, hnext⟩ := hstore
      rw [blobmsgAddObject]
      by_cases hcontainer : item.type = .object ∨ item.type = .array
      · have helement : ∀ object, blobmsgAddJsonElement object b (item.string.map cText) item
            = addNested object b (item.string.map cText) (decide (item.type = .array)) := by
          intro object
          rcases hcontainer with htype | htype <;> simp [blobmsgAddJsonElement, htype]
        simp only [asCalls, if_pos hcontainer] at hrun ⊢
        rw [helement, addNested]
        cases hbody : (asCalls child).2 with
        | true =>
            simp only [hbody, if_true] at hrun ⊢
            obtain ⟨cookie, b₁, b₂, b₃, hopen, hinside, hclose, hrun⟩ := runCalls_nest hrun
            simp only [hopen, Option.bind_some, ihchild hchild hinside, hbody, hclose,
              Option.map_some]
            exact ihnext hnext hrun
        | false =>
            simp only [hbody, Bool.false_eq_true, if_false] at hrun ⊢
            obtain ⟨cookie, b₁, b₂, b₃, hopen, hinside, hclose, hrun⟩ := runCalls_nest hrun
            cases hrun
            simp only [hopen, Option.bind_some, ihchild hchild hinside, hbody, hclose,
              Option.map_some]
            rfl
      · simp only [asCalls, if_neg hcontainer] at hrun ⊢
        cases hfield : fieldOf item with
        | some field =>
            simp only [hfield] at hrun ⊢
            rw [runCalls] at hrun
            obtain ⟨⟨ok, b₁⟩, hadd, hrun⟩ := Option.bind_eq_some_iff.mp hrun
            cases ok with
            | true =>
                rw [blobmsgAddJsonElement_field hfield hadd hstring, Option.bind_some]
                exact ihnext hnext hrun
            | false => cases hrun
        | none =>
            simp only [hfield] at hrun ⊢
            cases hrun
            rw [not_or] at hcontainer
            rw [blobmsgAddJsonElement, type_of_fieldOf hfield hcontainer.1 hcontainer.2]
            rfl

/-- No value in a chain or below it is null. -/
def noNulls : Json → Bool
  | .nil => true
  | .node item child next => decide (item.type ≠ .null) && noNulls child && noNulls next

theorem asCalls_snd {chain : Json} (hstore : Storable chain) :
    (asCalls chain).2 = noNulls chain := by
  induction chain with
  | nil => rfl
  | node item child next ihchild ihnext =>
      obtain ⟨-, -, hleaf, hchild, hnext⟩ := hstore
      rw [noNulls, asCalls, ← ihchild hchild, ← ihnext hnext]
      by_cases hcontainer : item.type = .object ∨ item.type = .array
      · have hvalue : item.type ≠ .null := by
          rcases hcontainer with htype | htype <;> rw [htype] <;> decide
        rw [if_pos hcontainer, decide_eq_true hvalue, Bool.true_and]
      · rw [not_or] at hcontainer
        rw [if_neg (not_or.mpr hcontainer), hleaf hcontainer.1 hcontainer.2]
        unfold fieldOf
        cases htype : item.type with
        | object => exact absurd htype hcontainer.1
        | array => exact absurd htype hcontainer.2
        | null | true | false | number | string => simp [asCalls]

theorem Storable.name {item : Item} {child next : Json} (h : Storable (.node item child next)) :
    NameOk ((item.string.map cText).getD []) := by
  cases hkey : item.string with
  | none => exact ⟨by decide, by decide⟩
  | some key =>
      obtain ⟨hzero, hshort⟩ := h.1 key hkey
      have hname : ((some key).map cText).getD [] = key := cText_eq hzero
      rw [hname]
      exact ⟨hshort, hzero⟩

theorem asCalls_valid {chain : Json} (hstore : Storable chain) : (asCalls chain).1.Valid := by
  induction chain with
  | nil => trivial
  | node item child next ihchild ihnext =>
      have hname := hstore.name
      obtain ⟨-, -, -, hchild, hnext⟩ := hstore
      rw [asCalls]
      split
      · refine ⟨hname, ihchild hchild, ?_⟩
        split
        · exact ihnext hnext
        · trivial
      · split
        · next field hfield =>
            refine ⟨?_, ihnext hnext⟩
            unfold fieldOf at hfield
            cases htype : item.type <;> rw [htype] at hfield <;> cases hfield
            · exact hname
            · exact hname
            · exact hname
            · exact ⟨hname, zero_not_mem_cText _⟩
        · trivial

/-! ## The trees of the elements -/

/-- The members of objects have names that are not empty. -/
def KeysNamed : Bool → Json → Prop
  | _, .nil => True
  | keyed, .node item child next =>
      (keyed = true → ∃ key, item.string = some key ∧ key ≠ []) ∧
        KeysNamed (item.type = .object) child ∧ KeysNamed keyed next

/-- A chain with its numbers cut to the 32 bits of their integers. -/
def narrowed : Json → Json
  | .nil => .nil
  | .node item child next =>
      .node { item with valueint := Int.bmod item.valueint (2 ^ 32) } (narrowed child)
        (narrowed next)

/-- The integers of a chain fit 32 bits. -/
def InRange : Json → Prop
  | .nil => True
  | .node item child next =>
      (item.type = .number → -2 ^ 31 ≤ item.valueint ∧ item.valueint < 2 ^ 31) ∧ InRange child ∧
        InRange next

/-- A tree like the one with its numbers cut is like the one itself where they fit. -/
theorem alike_iff_inRange {chain : Json} : ∀ {keyed : Bool} {j : Json},
    Alike keyed (narrowed chain) j → (Alike keyed chain j ↔ InRange chain) := by
  induction chain with
  | nil => exact fun h => iff_of_true h trivial
  | node item child next ihchild ihnext =>
      intro keyed j h
      cases j with
      | nil => exact h.elim
      | node item' child' next' =>
          obtain ⟨htype, hkey, hstring, hint, hchild, hnext⟩ := h
          have hsame : (item.type = .number → item'.valueint = item.valueint) ↔
              (item.type = .number → -2 ^ 31 ≤ item.valueint ∧ item.valueint < 2 ^ 31) := by
            refine forall_congr' fun hnumber => ?_
            have hcut : item'.valueint = Int.bmod item.valueint (2 ^ 32) := hint hnumber
            have hle := @Int.le_bmod item.valueint (2 ^ 32) (by decide)
            have hlt := @Int.bmod_lt item.valueint (2 ^ 32) (by decide)
            rw [hcut]
            refine ⟨fun h => by omega, fun h => ?_⟩
            rw [Int.bmod_eq_of_le] <;> omega
          constructor
          · intro hall
            obtain ⟨-, -, -, hvalue, hchild', hnext'⟩ := hall
            exact ⟨hsame.mp hvalue, (ihchild hchild).mp hchild', (ihnext hnext).mp hnext'⟩
          · intro hall
            obtain ⟨hvalue, hchild', hnext'⟩ := hall
            exact ⟨htype, hkey, hstring, hsame.mpr hvalue, (ihchild hchild).mpr hchild',
              (ihnext hnext).mpr hnext'⟩

/-- What `blobmsg_add_u32` keeps of an integer. -/
theorem dataJson_u32 (env : Libc) (v : Int) :
    dataJson env blobmsgTypeInt32 (beBytes 4 (UInt32.ofNat (v % 2 ^ 32).toNat).toNat)
      = .node (numberItem env (intParts (Int.bmod v (2 ^ 32)))) .nil .nil := by
  have hlt : (v % 2 ^ 32).toNat < 2 ^ 32 := by omega
  have hword : beNat (beBytes 4 (UInt32.ofNat (v % 2 ^ 32).toNat).toNat) = (v % 2 ^ 32).toNat := by
    rw [UInt32.toNat_ofNat', Nat.mod_eq_of_lt hlt, beNat_beBytes_of_lt hlt]
  have hsigned : signed 4 (v % 2 ^ 32).toNat = Int.bmod v (2 ^ 32) := by
    have hcast : ((v % 2 ^ 32).toNat : Int) = v % (2 ^ 32 : Nat) := by omega
    rw [signed, hcast]
    exact Int.emod_bmod v (2 ^ 32)
  rw [dataJson, if_neg (by decide), if_neg (by decide), if_neg (by decide), dataInt,
    if_neg (by decide), if_pos rfl, hword, hsigned]

/-- The tree of the element of a field. -/
theorem alike_field (env : Libc) {item : Item} {field : Field} (hfield : fieldOf item = some field)
    (hstring : item.type = .string → ∃ s, item.valuestring = some s ∧ 0 ∉ s) :
    Alike false (.node { item with valueint := Int.bmod item.valueint (2 ^ 32) } .nil .nil)
      (field.element.json env) := by
  unfold fieldOf at hfield
  cases htype : item.type <;> rw [htype] at hfield <;> cases hfield
  · exact ⟨rfl, nofun, nofun, nofun, trivial, trivial⟩
  · exact ⟨rfl, nofun, nofun, nofun, trivial, trivial⟩
  · have hjson : Element.json env (Field.u32 (item.string.map cText)
        (UInt32.ofNat (item.valueint % 2 ^ 32).toNat)).element
        = .node (numberItem env (intParts (Int.bmod item.valueint (2 ^ 32)))) .nil .nil :=
      dataJson_u32 env item.valueint
    have hle := @Int.le_bmod item.valueint (2 ^ 32) (by decide)
    have hlt := @Int.bmod_lt item.valueint (2 ^ 32) (by decide)
    have hback := @valueint_exact env (Int.bmod item.valueint (2 ^ 32)) (by omega)
    rw [hjson]
    exact ⟨rfl, nofun, nofun, fun _ => hback, trivial, trivial⟩
  · obtain ⟨s, hs, hzero⟩ := hstring htype
    have hkept : (cText (item.valuestring.getD []) ++ [0]).dropLast = s := by
      rw [List.dropLast_concat, hs]
      exact cText_eq hzero
    refine ⟨rfl, nofun, fun _ => ?_, nofun, trivial, trivial⟩
    exact (congrArg some hkept).trans hs.symm

theorem Field.name_element {item : Item} {field : Field} (hfield : fieldOf item = some field) :
    field.element.name = (item.string.map cText).getD [] := by
  unfold fieldOf at hfield
  cases htype : item.type <;> rw [htype] at hfield <;> cases hfield <;> rfl

/-- The tree of a table or an array. -/
theorem alike_nest (env : Libc) {item : Item}
    (hcontainer : item.type = .object ∨ item.type = .array) (name : Mem) {child : Json}
    {es : List Element}
    (h : Alike (!decide (item.type = .array)) child
      (elementsJson env (decide (item.type = .array)) es)) :
    Alike false (.node item child .nil)
      (Element.json env (.nest (decide (item.type = .array)) name es)) := by
  rw [Element.json]
  rcases hcontainer with htype | htype
  · rw [htype] at h ⊢
    exact alike_container htype (.inr rfl) h
  · rw [htype] at h ⊢
    exact alike_container htype (.inl rfl) h

/-- An element in front of the others. -/
theorem alike_cons {env : Libc} {item : Item} {child next : Json}
    {array : Bool} {e : Element} {es : List Element}
    (h : Alike false (.node item child .nil) (e.json env))
    (hname : e.name = (item.string.map cText).getD [])
    (hzero : ∀ key, item.string = some key → 0 ∉ key)
    (hkey : array = false → ∃ key, item.string = some key ∧ key ≠ [])
    (hnext : Alike (!array) next (elementsJson env array es)) :
    Alike (!array) (.node item child next) (elementsJson env array (e :: es)) := by
  rw [elementsJson]
  cases array with
  | true => exact h.link hnext
  | false =>
      obtain ⟨key, hstring, -⟩ := hkey rfl
      have hsame : e.name = key := by
        rw [hname, hstring]
        exact cText_eq (hzero key hstring)
      rw [hsame]
      exact (h.key hstring).link hnext

/-- The elements of a chain without nulls are the chain. -/
theorem alike_elements (env : Libc) (chain : Json) : ∀ {array : Bool}, Storable chain →
    noNulls chain = true → KeysNamed (!array) chain →
    Alike (!array) (narrowed chain) (elementsJson env array (asCalls chain).1.elements) := by
  induction chain with
  | nil => exact fun _ _ _ => trivial
  | node item child next ihchild ihnext =>
      intro array hstore hnulls hnamed
      have hzero : ∀ key, item.string = some key → 0 ∉ key := fun key hkey => (hstore.1 key hkey).1
      obtain ⟨-, hstring, hleaf, hchild, hnext⟩ := hstore
      obtain ⟨hkey, hnamedChild, hnamedNext⟩ := hnamed
      simp only [noNulls, Bool.and_eq_true, decide_eq_true_eq] at hnulls
      obtain ⟨⟨hvalue, hnullsChild⟩, hnullsNext⟩ := hnulls
      have hrest := ihnext hnext hnullsNext hnamedNext
      have hkey' : array = false → ∃ key, item.string = some key ∧ key ≠ [] := fun h =>
        hkey (by rw [h]; rfl)
      by_cases hcontainer : item.type = .object ∨ item.type = .array
      · rw [asCalls, if_pos hcontainer, asCalls_snd hchild, if_pos hnullsChild]
        have hsame : decide (item.type = .object) = !decide (item.type = .array) := by
          rcases hcontainer with htype | htype <;> rw [htype] <;> rfl
        rw [hsame] at hnamedChild
        have hnest := @alike_nest env { item with valueint := Int.bmod item.valueint (2 ^ 32) }
          hcontainer ((item.string.map cText).getD []) _ _ (ihchild hchild hnullsChild hnamedChild)
        exact alike_cons hnest rfl hzero hkey' hrest
      · rw [asCalls, if_neg hcontainer]
        rw [not_or] at hcontainer
        cases hfield : fieldOf item with
        | some field =>
            have hnil := hleaf hcontainer.1 hcontainer.2
            have hname := Field.name_element hfield
            rw [hnil]
            exact alike_cons (alike_field env hfield hstring) hname hzero hkey' hrest
        | none =>
            exact absurd (type_of_fieldOf hfield hcontainer.1 hcontainer.2) hvalue

/-- What is added can be rendered. -/
theorem propers_asCalls (chain : Json) : ∀ {array : Bool}, Storable chain →
    KeysNamed (!array) chain → Propers array (asCalls chain).1.elements := by
  induction chain with
  | nil => exact fun _ _ => trivial
  | node item child next ihchild ihnext =>
      intro array hstore hnamed
      have hzero : ∀ key, item.string = some key → 0 ∉ key := fun key hkey => (hstore.1 key hkey).1
      obtain ⟨-, hstring, -, hchild, hnext⟩ := hstore
      obtain ⟨hkey, hnamedChild, hnamedNext⟩ := hnamed
      have hname : array = false → (item.string.map cText).getD [] ≠ [] := by
        intro harray
        obtain ⟨key, hstring, hne⟩ := hkey (by rw [harray]; rfl)
        rw [hstring, Option.map_some, Option.getD_some, cText_eq (hzero key hstring)]
        exact hne
      rw [asCalls]
      split
      · next hcontainer =>
          have hsame : decide (item.type = .object) = !decide (item.type = .array) := by
            rcases hcontainer with htype | htype <;> rw [htype] <;> rfl
          rw [hsame] at hnamedChild
          refine ⟨⟨hname, ihchild hchild hnamedChild⟩, ?_⟩
          split
          · exact ihnext hnext hnamedNext
          · trivial
      · split
        · next field hfield =>
            refine ⟨?_, ihnext hnext hnamedNext⟩
            unfold fieldOf at hfield
            cases htype : item.type <;> rw [htype] at hfield <;> cases hfield
            · exact ⟨hname, nofun⟩
            · exact ⟨hname, nofun⟩
            · exact ⟨hname, nofun⟩
            · refine ⟨hname, fun _ => ?_⟩
              rw [List.dropLast_concat]
              exact zero_not_mem_cText _
        · trivial

/-! ## What the buffer holds -/

section Documents

variable {env : Libc} {b : BlobBuf} {str rest : Text} {item : Item} {child next : Json}

/-- The calls of a document into a new message. -/
theorem blobmsgAddJsonFromString_calls (hb : b.Sound)
    (hparse : jsonParse env str = .ok (.node item child next) rest) (hobject : item.type = .object)
    (hstore : Storable child) (hsize : (asCalls child).1.peak 4 < 2 ^ 24) :
    ∃ b₀ b' bs spare, blobBufInit b blobmsgTypeTable = some (true, b₀) ∧
      blobmsgAddJsonFromString env b₀ str = some (noNulls child, b') ∧
      Holds (asCalls child).1.elements bs ∧ 4 + bs.length < 2 ^ 24 ∧
      b'.ptr b'.head = header false blobmsgTypeTable (4 + bs.length) ++ (bs ++ spare) ∧
      bs.length < b'.buflen := by
  obtain ⟨b', bs, spare, hencode, hes, hsmall, hptr, hlen⟩ :=
    encode_holds hb (asCalls_valid hstore) hsize
  rw [encode] at hencode
  obtain ⟨⟨ok, b₀⟩, hinit, hrun⟩ := Option.bind_eq_some_iff.mp hencode
  cases ok with
  | false => cases hrun
  | true =>
      refine ⟨b₀, b', bs, spare, hinit, ?_, hes, hsmall, hptr, hlen⟩
      rw [blobmsgAddJsonFromString, hparse]
      simp only
      rw [blobmsgAddJson, if_neg (not_not.mpr hobject), blobmsgAddObject_calls child hstore hrun,
        asCalls_snd hstore]

/-- **The conversion reports success exactly if the document has no null**, and the buffer
holds a message of what stands in front of the first one, with its tables closed. -/
theorem blobmsgAddJson_holds (hb : b.Sound)
    (hparse : jsonParse env str = .ok (.node item child next) rest) (hobject : item.type = .object)
    (hstore : Storable child) (hsize : (asCalls child).1.peak 4 < 2 ^ 24) :
    ∃ b₀ b' seen, blobBufInit b blobmsgTypeTable = some (true, b₀) ∧
      blobmsgAddJsonFromString env b₀ str = some (noNulls child, b') ∧
      readMsg b'.buflen (b'.ptr b'.head) = some ((asCalls child).1.elements, seen) ∧
      ∀ a ∈ seen, Checked a := by
  obtain ⟨b₀, b', bs, spare, hinit, hadd, hes, hsmall, hptr, hlen⟩ :=
    blobmsgAddJsonFromString_calls hb hparse hobject hstore hsize
  obtain ⟨seen, hread, hseen⟩ :=
    @readMsg_holds blobmsgTypeTable b'.buflen _ bs spare hes (by decide) hsmall hlen
  rw [← hptr] at hread
  exact ⟨b₀, b', seen, hinit, hadd, hread, fun a ha => (hseen a ha).1⟩

/-- `{"a":[1,null]}` without its braces. -/
def listWithNull : Json :=
  .node { newItem with type := .array, string := some [97] }
    (.node (numberItem default ⟨false, [49], [], none⟩) .nil
      (.node { newItem with type := .null } .nil .nil)) .nil

/-- The number is in the message, in a table that is closed. -/
theorem blobmsgAddJson_holds_null :
    ∃ b₀ b' seen, blobBufInit ⟨0, 0, [], fun k => some (4096 * k)⟩ blobmsgTypeTable
        = some (true, b₀) ∧
      blobmsgAddJsonFromString default b₀
          [123, 34, 97, 34, 58, 91, 49, 44, 110, 117, 108, 108, 93, 125, 0] = some (false, b') ∧
      readMsg b'.buflen (b'.ptr b'.head) = some ((asCalls listWithNull).1.elements, seen) ∧
      ∀ a ∈ seen, Checked a :=
  @blobmsgAddJson_holds default ⟨0, 0, [], fun k => some (4096 * k)⟩ _ [0] _ listWithNull .nil
    ⟨rfl, fun _ => rfl⟩ rfl rfl
    ⟨fun _ h => by cases h; decide, nofun, nofun, ⟨nofun, nofun, fun _ _ => rfl, trivial,
      nofun, nofun, fun _ _ => rfl, trivial, trivial⟩, trivial⟩ (by decide)

/-- **A document without nulls is rendered again as it was**, but for its numbers, of which the
low 32 bits of their integers are kept: it comes back exactly if its integers fit them. -/
theorem blobmsgAddJson_read {host : Host} (hhost : host.Grants) {chars : Mem}
    (hchars : Template chars) (hb : b.Sound)
    (hparse : jsonParse env str = .ok (.node item child next) rest) (hobject : item.type = .object)
    (hstore : Storable child) (hnulls : noNulls child = true) (hnamed : KeysNamed true child)
    (hsize : (asCalls child).1.peak 4 < 2 ^ 24) {n : Int}
    (hlevel : (if 0 ≤ n then n else host.stack) + depths (asCalls child).1.elements + 1 < 2 ^ 31) :
    ∃ b₀ b' t chars', blobBufInit b blobmsgTypeTable = some (true, b₀) ∧
      blobmsgAddJsonFromString env b₀ str = some (true, b') ∧
      blobmsgFormatJsonWithCb host chars (b'.ptr b'.head) true none n
        = some (some (t ++ [0]), chars') ∧
      ∀ z, ∃ j, jsonParse env (t ++ 0 :: z) = .ok j (0 :: z) ∧
        Alike false (.node item (narrowed child) .nil) j ∧
        (Alike false (.node item child .nil) j ↔ InRange child) := by
  obtain ⟨b₀, b', bs, spare, hinit, hadd, hes, hsmall, hptr, -⟩ :=
    blobmsgAddJsonFromString_calls hb hparse hobject hstore hsize
  have hproper := @propers_asCalls child false hstore hnamed
  obtain ⟨chars', hformat⟩ := blobmsgFormatJsonWithCb_text hhost hchars hes hproper hsmall spare
    rfl hlevel
  rw [← hptr] at hformat
  rw [hnulls] at hadd
  have hchild := @alike_elements env child false hstore hnulls hnamed
  refine ⟨b₀, b', _, chars', hinit, hadd, hformat, fun z => ⟨_, jsonParse_render env hes hproper _ _
    (0 :: z), alike_container hobject (.inr rfl) hchild, fun h => ?_, fun h => ?_⟩⟩
  · obtain ⟨-, -, -, -, hinside, -⟩ := h
    rw [hobject] at hinside
    exact (alike_iff_inRange hchild).mp hinside
  · exact alike_container hobject (.inr rfl) ((alike_iff_inRange hchild).mpr h)

/-- `{"a":[4294967297,"/"]}` without its braces. -/
def listWithLong : Json :=
  .node { newItem with type := .array, string := some [97] }
    (.node (numberItem default ⟨false, [52, 50, 57, 52, 57, 54, 55, 50, 57, 55], [], none⟩) .nil
      (.node { newItem with type := .string, valuestring := some [47] } .nil .nil)) .nil

theorem blobmsgAddJson_read_long :
    ∃ b₀ b' t chars', blobBufInit ⟨0, 0, [], fun k => some (4096 * k)⟩ blobmsgTypeTable
        = some (true, b₀) ∧
      blobmsgAddJsonFromString default b₀ [123, 34, 97, 34, 58, 91, 52, 50, 57, 52, 57, 54, 55, 50,
        57, 55, 44, 34, 47, 34, 93, 125, 0] = some (true, b') ∧
      blobmsgFormatJsonWithCb zeroHost (9 :: List.replicate 16 9) (b'.ptr b'.head) true none 0
        = some (some (t ++ [0]), chars') ∧
      ∀ z, ∃ j, jsonParse default (t ++ 0 :: z) = .ok j (0 :: z) ∧
        Alike false (.node { newItem with type := .object } (narrowed listWithLong) .nil) j ∧
        (Alike false (.node { newItem with type := .object } listWithLong .nil) j ↔
          InRange listWithLong) :=
  @blobmsgAddJson_read default ⟨0, 0, [], fun k => some (4096 * k)⟩ _ [0] _ listWithLong .nil
    zeroHost zeroHost_grants _ ⟨9, rfl⟩ ⟨rfl, fun _ => rfl⟩ rfl rfl
    ⟨fun _ h => by cases h; decide, nofun, nofun, ⟨nofun, nofun, fun _ _ => rfl, trivial,
      nofun, fun _ => ⟨[47], rfl, by decide⟩, fun _ _ => rfl, trivial, trivial⟩, trivial⟩
    rfl ⟨fun _ => ⟨[97], rfl, by decide⟩, ⟨nofun, trivial, nofun, trivial, trivial⟩, trivial⟩
    (by decide) 0 (by decide)

end Documents

end Libubox.Blobmsg
