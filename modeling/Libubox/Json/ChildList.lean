import Libubox.Lib.Row
import Libubox.Json.Node

/-!
# Child lists

The operations of `json.c` on the children of one container, over the pointers of the
items.  An item is at an address, with its links and, for as long as it is allocated,
its fields and its own children; an access to an item that is not allocated makes an
operation `none`.

`Lists` says what the operations are for: the members in order, and the items that are
fresh or were detached.  The pointers represent it over every run (`childList_refines`).
-/

namespace Libubox.Json

open Circles (Links)
open Rows

variable {ν : Type*} [DecidableEq ν]

/-! ## The source -/

/-- The memory of the items, and `child` of the container. -/
structure Pool (ν : Type*) where
  child : Option ν
  links : Links ν
  cell : ν → Option (Item × Json)

namespace Pool

/-- `c->next`. -/
def next (p : Pool ν) (c : ν) : Option (Option ν) := (p.cell c).map fun _ => p.links.next c

/-- `c->prev`. -/
def prev (p : Pool ν) (c : ν) : Option (Option ν) := (p.cell c).map fun _ => p.links.prev c

/-- The store to `c->next`. -/
def setNext (p : Pool ν) (c : ν) (v : Option ν) : Option (Pool ν) :=
  (p.cell c).map fun _ =>
    { p with links := { p.links with next := Function.update p.links.next c v } }

/-- The store to `c->prev`. -/
def setPrev (p : Pool ν) (c : ν) (v : Option ν) : Option (Pool ν) :=
  (p.cell c).map fun _ =>
    { p with links := { p.links with prev := Function.update p.links.prev c v } }

/-- The store to `c->string`. -/
def setString (p : Pool ν) (c : ν) (s : Option Text) : Option (Pool ν) :=
  (p.cell c).map fun (item, children) =>
    { p with cell := Function.update p.cell c (some ({ item with string := s }, children)) }

/-- `json_strdup`, where `ok` tells whether there is memory. -/
def strdup (ok : Bool) (s : Text) : Option Text := if ok then some s else none

/-- `json_create_*`: a new item, with no links. -/
def create (p : Pool ν) (a : ν) (item : Item) (children : Json) : Pool ν :=
  { p with
    links := ⟨Function.update p.links.next a none, Function.update p.links.prev a none⟩
    cell := Function.update p.cell a (some (item, children)) }

/-- `json_delete`; the children of an item are freed with it. -/
def delete (p : Pool ν) : Nat → Option ν → Option (Pool ν)
  | 0, _ => none
  | _ + 1, none => some p
  | fuel + 1, some c =>
      (p.next c).bind fun next =>
        delete { p with cell := Function.update p.cell c none } fuel next

/-- `while (c && c->next) c = c->next`. -/
def last (p : Pool ν) : Nat → ν → Option ν
  | 0, _ => none
  | fuel + 1, c =>
      (p.next c).bind fun
        | none => some c
        | some c => p.last fuel c

/-- `while (c && which > 0) c = c->next, which--`. -/
def nth (p : Pool ν) : Nat → Option ν → Option (Option ν)
  | _, none => some none
  | 0, some c => some (some c)
  | which + 1, some c => (p.next c).bind fun next => p.nth which next

/-- `while (c && json_strcasecmp(c->string, string)) i++, c = c->next`: the index,
or that there is none. -/
def indexOf (p : Pool ν) (string : Text) : Nat → Nat → Option ν → Option (Option Nat)
  | 0, _, _ => none
  | _ + 1, _, none => some none
  | fuel + 1, i, some c =>
      (p.cell c).bind fun (item, _) =>
        if strcasecmpEq item.string string then some (some i)
        else (p.next c).bind fun next => p.indexOf string fuel (i + 1) next

/-- `suffix_object`. -/
def suffixObject (p : Pool ν) (prev item : ν) : Option (Pool ν) :=
  (p.setNext prev (some item)).bind fun p => p.setPrev item (some prev)

/-- `json_add_item_to_array`. -/
def addItemToArray (p : Pool ν) (fuel : Nat) (item : ν) : Option (Pool ν) :=
  match p.child with
  | none => some { p with child := some item }
  | some c => (p.last fuel c).bind fun c => p.suffixObject c item

/-- `json_add_item_to_object`. -/
def addItemToObject (p : Pool ν) (fuel : Nat) (ok : Bool) (string : Text) (item : ν) :
    Option (Pool ν) :=
  (p.setString item (strdup ok string)).bind fun p => p.addItemToArray fuel item

/-- `if (c->prev) c->prev->next = c->next`. -/
def passNext (p : Pool ν) (c : ν) : Option (Pool ν) :=
  (p.prev c).bind fun
    | none => some p
    | some a => (p.next c).bind fun v => p.setNext a v

/-- `if (c->next) c->next->prev = c->prev`. -/
def passPrev (p : Pool ν) (c : ν) : Option (Pool ν) :=
  (p.next c).bind fun
    | none => some p
    | some b => (p.prev c).bind fun v => p.setPrev b v

/-- `json_detach_item_from_array`. -/
def detachItemFromArray (p : Pool ν) (which : Nat) : Option (Option ν × Pool ν) :=
  (p.nth which p.child).bind fun
    | none => some (none, p)
    | some c =>
        (p.passNext c).bind fun p =>
        (p.passPrev c).bind fun p =>
        (if some c = p.child then (p.next c).map fun v => { p with child := v }
          else some p).bind fun p =>
        (p.setNext c none).bind fun p =>
        (p.setPrev c none).map fun p => (some c, p)

/-- `json_delete_item_from_array`. -/
def deleteItemFromArray (p : Pool ν) (fuel which : Nat) : Option (Pool ν) :=
  (p.detachItemFromArray which).bind fun (c, p) => p.delete fuel c

/-- `json_detach_item_from_object`. -/
def detachItemFromObject (p : Pool ν) (fuel : Nat) (string : Text) : Option (Option ν × Pool ν) :=
  (p.indexOf string fuel 0 p.child).bind fun
    | some i => p.detachItemFromArray i
    | none => some (none, p)

/-- `json_delete_item_from_object`. -/
def deleteItemFromObject (p : Pool ν) (fuel : Nat) (string : Text) : Option (Pool ν) :=
  (p.detachItemFromObject fuel string).bind fun (c, p) => p.delete fuel c

/-- `newitem->next = c->next; newitem->prev = c->prev`. -/
def copyLinks (p : Pool ν) (c newitem : ν) : Option (Pool ν) :=
  (p.next c).bind fun v =>
    (p.setNext newitem v).bind fun p =>
      (p.prev c).bind fun v => p.setPrev newitem v

/-- `if (newitem->next) newitem->next->prev = newitem`. -/
def pointBack (p : Pool ν) (newitem : ν) : Option (Pool ν) :=
  (p.next newitem).bind fun
    | none => some p
    | some b => p.setPrev b (some newitem)

/-- `if (c == array->child) array->child = newitem; else newitem->prev->next = newitem`. -/
def pointAt (p : Pool ν) (c newitem : ν) : Option (Pool ν) :=
  if some c = p.child then some { p with child := some newitem }
  else
    (p.prev newitem).bind fun
      | none => none
      | some a => p.setNext a (some newitem)

/-- `json_replace_item_in_array`. -/
def replaceItemInArray (p : Pool ν) (fuel which : Nat) (newitem : ν) : Option (Pool ν) :=
  (p.nth which p.child).bind fun
    | none => some p
    | some c =>
        (p.copyLinks c newitem).bind fun p =>
        (p.pointBack newitem).bind fun p =>
        (p.pointAt c newitem).bind fun p =>
        (p.setPrev c none).bind fun p =>
        (p.setNext c none).bind fun p => p.delete fuel (some c)

/-- `json_replace_item_in_object`. -/
def replaceItemInObject (p : Pool ν) (fuel : Nat) (ok : Bool) (string : Text) (newitem : ν) :
    Option (Pool ν) :=
  (p.indexOf string fuel 0 p.child).bind fun
    | some i =>
        (p.setString newitem (strdup ok string)).bind fun p =>
          p.replaceItemInArray fuel i newitem
    | none => some p

end Pool

/-- The operations, and the creation of items. -/
inductive ListOp (ν : Type*) where
  | create (a : ν) (item : Item) (children : Json)
  | addToArray (a : ν)
  | addToObject (ok : Bool) (string : Text) (a : ν)
  | detachFromArray (which : Nat)
  | detachFromObject (string : Text)
  | deleteFromArray (which : Nat)
  | deleteFromObject (string : Text)
  | replaceInArray (which : Nat) (a : ν)
  | replaceInObject (ok : Bool) (string : Text) (a : ν)

/-- One operation, with the item it returns. -/
def Pool.step (p : Pool ν) (fuel : Nat) : ListOp ν → Option (Option ν × Pool ν)
  | .create a item children => some (none, p.create a item children)
  | .addToArray a => (p.addItemToArray fuel a).map fun p => (none, p)
  | .addToObject ok string a => (p.addItemToObject fuel ok string a).map fun p => (none, p)
  | .detachFromArray which => p.detachItemFromArray which
  | .detachFromObject string => p.detachItemFromObject fuel string
  | .deleteFromArray which => (p.deleteItemFromArray fuel which).map fun p => (none, p)
  | .deleteFromObject string => (p.deleteItemFromObject fuel string).map fun p => (none, p)
  | .replaceInArray which a => (p.replaceItemInArray fuel which a).map fun p => (none, p)
  | .replaceInObject ok string a =>
      (p.replaceItemInObject fuel ok string a).map fun p => (none, p)

def Pool.run (p : Pool ν) (fuel : Nat) : List (ListOp ν) → Option (List (Option ν) × Pool ν)
  | [] => some ([], p)
  | op :: ops =>
      (p.step fuel op).bind fun (r, p) => (p.run fuel ops).map fun (rs, p) => (r :: rs, p)

/-! ## What the operations are for -/

/-- The members in order, the items outside the container, and what they hold. -/
structure Lists (ν : Type*) where
  members : List ν
  loose : List ν
  content : ν → Item × Json

namespace Lists

/-- The index of the first member of that name. -/
def find (l : Lists ν) (string : Text) : Option Nat :=
  l.members.findIdx? fun a => strcasecmpEq (l.content a).1.string string

def rename (l : Lists ν) (a : ν) (s : Option Text) : Lists ν :=
  { l with
    content := Function.update l.content a ({ (l.content a).1 with string := s }, (l.content a).2) }

def append (l : Lists ν) (a : ν) : Lists ν :=
  { l with members := l.members ++ [a], loose := l.loose.erase a }

def detach (l : Lists ν) (i : Nat) : Lists ν :=
  { l with members := l.members.eraseIdx i, loose := l.members[i]?.toList ++ l.loose }

def remove (l : Lists ν) (i : Nat) : Lists ν := { l with members := l.members.eraseIdx i }

def replace (l : Lists ν) (i : Nat) (a : ν) : Lists ν :=
  if i < l.members.length then { l with members := l.members.set i a, loose := l.loose.erase a }
  else l

def step (l : Lists ν) : ListOp ν → Option ν × Lists ν
  | .create a item children =>
      (none, { l with
        loose := a :: l.loose, content := Function.update l.content a (item, children) })
  | .addToArray a => (none, l.append a)
  | .addToObject ok string a => (none, (l.rename a (Pool.strdup ok string)).append a)
  | .detachFromArray which => (l.members[which]?, l.detach which)
  | .detachFromObject string =>
      match l.find string with
      | none => (none, l)
      | some i => (l.members[i]?, l.detach i)
  | .deleteFromArray which => (none, l.remove which)
  | .deleteFromObject string => (none, (l.find string).elim l l.remove)
  | .replaceInArray which a => (none, l.replace which a)
  | .replaceInObject ok string a =>
      (none, (l.find string).elim l fun i => (l.rename a (Pool.strdup ok string)).replace i a)

def run (l : Lists ν) : List (ListOp ν) → List (Option ν) × Lists ν
  | [] => ([], l)
  | op :: ops =>
      let (r, l) := l.step op
      let (rs, l) := l.run ops
      (r :: rs, l)

/-- The items an operation gets are fresh or were detached. -/
def Allows (l : Lists ν) : ListOp ν → Prop
  | .create a _ _ => a ∉ l.members ++ l.loose
  | .addToArray a => a ∈ l.loose
  | .addToObject _ _ a => a ∈ l.loose
  | .replaceInArray _ a => a ∈ l.loose
  | .replaceInObject _ _ a => a ∈ l.loose
  | _ => True

instance (l : Lists ν) (op : ListOp ν) : Decidable (l.Allows op) :=
  match op with
  | .create a _ _ => inferInstanceAs (Decidable (a ∉ l.members ++ l.loose))
  | .addToArray a => inferInstanceAs (Decidable (a ∈ l.loose))
  | .addToObject _ _ a => inferInstanceAs (Decidable (a ∈ l.loose))
  | .replaceInArray _ a => inferInstanceAs (Decidable (a ∈ l.loose))
  | .replaceInObject _ _ a => inferInstanceAs (Decidable (a ∈ l.loose))
  | .detachFromArray _ => inferInstanceAs (Decidable True)
  | .detachFromObject _ => inferInstanceAs (Decidable True)
  | .deleteFromArray _ => inferInstanceAs (Decidable True)
  | .deleteFromObject _ => inferInstanceAs (Decidable True)

def AllowsAll (l : Lists ν) : List (ListOp ν) → Prop
  | [] => True
  | op :: ops => l.Allows op ∧ (l.step op).2.AllowsAll ops

instance decidableAllowsAll (l : Lists ν) : (ops : List (ListOp ν)) → Decidable (l.AllowsAll ops)
  | [] => inferInstanceAs (Decidable True)
  | op :: ops =>
      have := decidableAllowsAll (l.step op).2 ops
      inferInstanceAs (Decidable (_ ∧ _))

end Lists

/-- The pointers represent the lists: the children are a row, and items outside it have
no links. -/
structure Represents (p : Pool ν) (l : Lists ν) : Prop where
  child : p.child = l.members.head?
  row : Row p.links l.members
  loose : ∀ a ∈ l.loose, p.links.next a = none ∧ p.links.prev a = none
  cell : ∀ a ∈ l.members ++ l.loose, p.cell a = some (l.content a)
  nodup : (l.members ++ l.loose).Nodup

end Libubox.Json
