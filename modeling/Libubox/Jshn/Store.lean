import Libubox.Jshn.Names

/-!
# What a call does to the names

The functions of `jshn.sh` on variables that are looked at through `spell`.  A member is
added in one way whatever it is (`addMember`); under what name it is, and what it takes to
find that name, depends on the table (`jsonAddGeneric_array`, `jsonAddGeneric_named`).
-/

namespace Libubox.Jshn

open Decimal Shell Vars

/-- The variables by name. -/
abbrev Store : Type := Vars Name

/-- The names of a namespace. -/
def store (pre : Word) (vars : Vars Word) : Store := vars.spelled (spell pre)

/-- The member `v` is entered in a table. -/
def addMember (s : Store) (t : Table) (v type value : Word) : Store :=
  (((s.exportAs (.value t v) value).exportAs (.type t v) type).append .unset (member t v)).append
    (.keys t) v

/-- The table `u`, with number `n`, is opened below `t`. -/
def openTable (s : Store) (t u : Table) (n : Nat) : Store :=
  (((((s.assign .seq (natText n)).assign (.up u) t.name).exportAs (.keys u) []).unset
    [.count u]).assign .cur u.name).append .unset u.name

/-- The table is an array. -/
def Table.IsArray : Table → Prop
  | array _ => True
  | _ => False

/-! ## Numerals -/

@[simp] theorem arithValue_nil : arithValue [] = some 0 := rfl

@[simp] theorem arithValue_natText (n : Nat) : arithValue (natText n) = some n := by
  rw [arithValue, if_neg (Decimal.natText_ne_nil n), readFrom_natText, if_pos rfl]

theorem withoutNumber_array (n : Nat) : withoutNumber (Table.array n).name = jArray := by
  obtain ⟨d, ds, hds⟩ := List.exists_cons_of_ne_nil (Decimal.natText_ne_nil n)
  have hd : IsDigit d := isDigit_of_mem_natText (hds ▸ List.mem_cons_self)
  have hhead : ∀ c ∈ jArray, ¬IsDigit c := by simp [jArray, IsDigit]
  show (jArray ++ natText n).takeWhile _ = _
  rw [List.takeWhile_append_of_pos (by simpa using hhead), hds,
    List.takeWhile_cons_of_neg (by simpa using hd), List.append_nil]

theorem withoutNumber_ne {t : Table} (h : ¬t.IsArray) : withoutNumber t.name ≠ jArray := by
  cases t with
  | outside => decide
  | root => decide
  | object n =>
      intro heq
      have hthird := congrArg (fun w => w[2]?) heq
      cases hthird
  | array n => exact absurd trivial h

/-! ## Through the spelling -/

section Calls

variable {pre : Word} {vars : Vars Word}

theorem expand_store (n : Name) : (store pre vars).expand n = vars.expand (pre ++ n.text) := rfl

theorem store_assign (n : Name) (value : Word) :
    store pre (vars.assign (pre ++ n.text) value) = (store pre vars).assign n value :=
  spelled_assign (spell_injective pre) vars n value

theorem store_exportAs (n : Name) (value : Word) :
    store pre (vars.exportAs (pre ++ n.text) value) = (store pre vars).exportAs n value :=
  spelled_exportAs (spell_injective pre) vars n value

theorem store_unexportAs (n : Name) (value : Word) :
    store pre (vars.unexportAs (pre ++ n.text) value) = (store pre vars).unexportAs n value :=
  spelled_unexportAs (spell_injective pre) vars n value

theorem store_append (n : Name) (word : Word) :
    store pre (vars.append (pre ++ n.text) word) = (store pre vars).append n word :=
  spelled_append (spell_injective pre) vars n word

theorem store_unset (n : Name) :
    store pre (vars.unset [pre ++ n.text]) = (store pre vars).unset [n] :=
  spelled_unset (spell_injective pre) vars [n]

theorem jsonInc_eq (n : Name) {k : Nat} (h : arithValue ((store pre vars).expand n) = some k) :
    jsonInc pre n.text vars
      = some (natText (k + 1), vars.assign (pre ++ n.text) (natText (k + 1))) := by
  rw [expand_store] at h
  rw [jsonInc, h]
  rfl

/-- What `_json_add_generic` does once it has a name. -/
theorem jsonAddGeneric_of_name {t : Table} {name v : Word} {vars₁ : Vars Word}
    (h : memberName pre name t.name vars = some (v, vars₁)) (type value : Word) :
    ∃ vars', jsonAddGeneric pre type name value t.name vars = some vars' ∧
      store pre vars' = addMember (store pre vars₁) t v type value := by
  refine ⟨_, by rw [jsonAddGeneric, h]; rfl, ?_⟩
  rw [addMember, ← store_exportAs, ← store_exportAs, ← store_append, ← store_append]
  rfl

/-- A member of an array is named by its number. -/
theorem jsonAddGeneric_array {n k : Nat}
    (h : arithValue ((store pre vars).expand (.count (.array n))) = some k)
    (type name value : Word) :
    ∃ vars', jsonAddGeneric pre type name value (Table.array n).name vars = some vars' ∧
      store pre vars' = addMember
        ((store pre vars).assign (.count (.array n)) (natText (k + 1))) (.array n)
        (natText (k + 1)) type value := by
  have hname := jsonInc_eq (.count (.array n)) h
  rw [← store_assign]
  refine jsonAddGeneric_of_name ?_ type value
  rw [memberName, if_pos (withoutNumber_array n)]
  exact hname

/-- A member of an object is named by its key, which is kept where it was changed. -/
theorem jsonAddGeneric_named {t : Table} (ht : ¬t.IsArray) (type name value : Word) :
    ∃ vars', jsonAddGeneric pre type name value t.name vars = some vars' ∧
      store pre vars' = addMember
        (if substituted name = name then store pre vars
          else (store pre vars).exportAs (.label t (substituted name)) name) t
        (substituted name) type value := by
  have hname : memberName pre name t.name vars = some (substituted name,
      if substituted name = name then vars
      else vars.exportAs (pre ++ (Name.label t (substituted name)).text) name) := by
    rw [memberName, if_neg (withoutNumber_ne ht)]
    rfl
  obtain ⟨vars', hgeneric, hadd⟩ := jsonAddGeneric_of_name hname type value
  refine ⟨vars', hgeneric, ?_⟩
  rw [hadd, ← store_exportAs]
  split <;> rfl

/-- `json_add_object` and `json_add_array`, up to the member that they add. -/
theorem jsonAddTable_eq {t u : Table} {n : Nat} {itype : UInt8} (name type : Word)
    (hu : u.name = jTable ++ itype :: natText (n + 1))
    (hcur : (store pre vars).expand .cur = t.name)
    (hseq : arithValue ((store pre vars).expand .seq) = some n) :
    ∃ vars₁, jsonAddTable pre name type itype vars
        = jsonAddGeneric pre type name u.name t.name vars₁ ∧
      store pre vars₁ = openTable (store pre vars) t u (n + 1) := by
  have hinc := jsonInc_eq .seq hseq
  have hcur' : vars.expand (pre ++ jsonCur) = t.name := hcur
  rw [Name.text] at hinc
  rw [jsonAddTable, hinc, Option.bind_some, hcur', ← hu]
  refine ⟨_, rfl, ?_⟩
  rw [openTable, ← store_assign, ← store_assign, ← store_exportAs, ← store_unset, ← store_assign,
    ← store_append]
  rfl

end Calls

end Libubox.Jshn
