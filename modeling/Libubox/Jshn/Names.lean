import Libubox.Jshn.Functions
import Mathlib.Data.List.TakeWhile

/-!
# Names that do not clash

The names that the functions of `jshn.sh` build are put together from texts that come
from the document.  They are spelled from a table, a member and what is kept about it
(`Name`), and differently spelled ones are different variables (`spell_injective`): a key
cannot be chosen so that one variable passes for another.

What the functions do to the variables is then said about names (`addMember` and the
lemmas behind it).
-/

namespace Libubox.Jshn

open Decimal Shell

/-! ## Tables and names -/

/-- A table.  `JSON_CUR` is empty behind the last `json_close_*`, so that `outside` is
one too. -/
inductive Table where
  | outside
  | root
  | object (n : Nat)
  | array (n : Nat)
  deriving DecidableEq

/-- What `JSON_CUR` holds. -/
def Table.name : Table → Word
  | outside => []
  | root => jV
  | object n => jTable ++ 84 :: natText n
  | array n => jTable ++ 65 :: natText n

/-- The variables of a namespace. -/
inductive Name where
  | cur
  | seq
  | unset
  | keys (t : Table)
  | up (t : Table)
  | count (t : Table)
  | value (t : Table) (v : Word)
  | type (t : Table) (v : Word)
  | label (t : Table) (v : Word)
  deriving DecidableEq

/-- The member `v` of a table. -/
def member (t : Table) (v : Word) : Word := t.name ++ 95 :: v

/-- How a name is spelled. -/
def Name.text : Name → Word
  | cur => jsonCur
  | seq => jsonSeq
  | unset => jsonUnset
  | keys t => keysOf ++ t.name
  | up t => upOf ++ t.name
  | count t => seqOf ++ t.name
  | value t v => member t v
  | type t v => typeOf ++ member t v
  | label t v => nameOf ++ member t v

/-- How a name is spelled in a namespace. -/
def spell (pre : Word) (n : Name) : Word := pre ++ n.text

/-! ## Spellings -/

/-- A numeral ends where something else than a digit stands. -/
theorem natText_append_injective {m n : Nat} {c d : UInt8} {v w : Word} (hc : ¬IsDigit c)
    (hd : ¬IsDigit d) (h : natText m ++ c :: v = natText n ++ d :: w) :
    m = n ∧ c :: v = d :: w := by
  have htake : ∀ (k : Nat) (e : UInt8) (u : Word), ¬IsDigit e →
      (natText k ++ e :: u).takeWhile (fun b => IsDigit b) = natText k := by
    intro k e u he
    rw [List.takeWhile_append_of_pos, List.takeWhile_cons_of_neg, List.append_nil]
    · simpa using he
    · intro b hb
      simpa using isDigit_of_mem_natText hb
  have hnumeral := congrArg (List.takeWhile fun b => IsDigit b) h
  rw [htake m c v hc, htake n d w hd] at hnumeral
  rw [hnumeral] at h
  exact ⟨Decimal.natText_injective hnumeral, List.append_cancel_left h⟩

theorem Table.name_injective {t u : Table} (h : t.name = u.name) : t = u := by
  cases t <;> cases u <;> simp [Table.name, jV, jTable] at h ⊢
  all_goals exact Decimal.natText_injective h

/-- A table and its member can be told apart. -/
theorem member_injective {t u : Table} {v w : Word} (h : member t v = member u w) :
    t = u ∧ v = w := by
  have hunder : ¬IsDigit 95 := by decide
  cases t with
  | outside => cases u <;> simp [member, Table.name, jV, jTable] at h ⊢; exact h
  | root => cases u <;> simp [member, Table.name, jV, jTable] at h ⊢; exact h
  | object n =>
      cases u with
      | object m =>
          simp only [member, Table.name, jTable, List.cons_append, List.nil_append,
            List.cons.injEq, true_and] at h
          obtain ⟨rfl, htail⟩ := natText_append_injective hunder hunder h
          exact ⟨rfl, (List.cons.inj htail).2⟩
      | outside => simp [member, Table.name, jTable] at h
      | root => simp [member, Table.name, jV, jTable] at h
      | array m => simp [member, Table.name, jTable] at h
  | array n =>
      cases u with
      | array m =>
          simp only [member, Table.name, jTable, List.cons_append, List.nil_append,
            List.cons.injEq, true_and] at h
          obtain ⟨rfl, htail⟩ := natText_append_injective hunder hunder h
          exact ⟨rfl, (List.cons.inj htail).2⟩
      | outside => simp [member, Table.name, jTable] at h
      | root => simp [member, Table.name, jV, jTable] at h
      | object m => simp [member, Table.name, jTable] at h

/-- What the beginning of a name tells of it. -/
def kindOf (w : Word) : Option UInt8 :=
  if w.take 2 = [74, 83] then none
  else if w.head? = some 74 then some 95
  else w.head?

/-- The letter of a name; an underscore for a value. -/
def Name.kind : Name → Option UInt8
  | cur | seq | unset => none
  | keys _ => some 75
  | up _ => some 85
  | count _ => some 83
  | value _ _ => some 95
  | type _ _ => some 84
  | label _ _ => some 78

theorem kindOf_text (n : Name) : kindOf n.text = n.kind := by
  cases n with
  | value t v => cases t <;> rfl
  | _ => rfl

theorem Name.text_injective : Function.Injective Name.text := by
  intro m n h
  have hkind : m.kind = n.kind := by
    rw [← kindOf_text, ← kindOf_text, h]
  cases m with
  | cur => cases n <;> first | rfl | exact absurd h (by decide) | cases hkind
  | seq => cases n <;> first | rfl | exact absurd h (by decide) | cases hkind
  | unset => cases n <;> first | rfl | exact absurd h (by decide) | cases hkind
  | keys t =>
      cases n <;> cases hkind
      rw [Table.name_injective (List.append_cancel_left h)]
  | up t =>
      cases n <;> cases hkind
      rw [Table.name_injective (List.append_cancel_left h)]
  | count t =>
      cases n <;> cases hkind
      rw [Table.name_injective (List.append_cancel_left h)]
  | value t v =>
      cases n <;> cases hkind
      obtain ⟨rfl, rfl⟩ := member_injective h
      rfl
  | type t v =>
      cases n <;> cases hkind
      obtain ⟨rfl, rfl⟩ := member_injective (List.append_cancel_left h)
      rfl
  | label t v =>
      cases n <;> cases hkind
      obtain ⟨rfl, rfl⟩ := member_injective (List.append_cancel_left h)
      rfl

/-- **Names that are spelled differently are different variables.** -/
theorem spell_injective (pre : Word) : Function.Injective (spell pre) :=
  fun _ _ h => Name.text_injective (List.append_cancel_left h)

end Libubox.Jshn
