import Libubox.Lib.Rings

/-!
# Lists

`list.h` over its pointers.  A head and an entry are both a `struct list_head`; a list is
the circle of its head.  A null pointer that is followed makes a call `none`.
-/

namespace Libubox.ListHead

open Circles

variable {ν : Type*} [DecidableEq ν]

variable (l : Links ν)

/-- `list_empty`. -/
def listEmpty (head : ν) : Bool := l.next head = some head

/-- `list_is_first`. -/
def listIsFirst (list head : ν) : Bool := l.prev list = some head

/-- `list_is_last`. -/
def listIsLast (list head : ν) : Bool := l.next list = some head

/-- `_list_del`. -/
def unlinkEntry (entry : ν) : Option (Links ν) :=
  (l.next entry).bind fun next =>
    (l.prev entry).map fun prev =>
      { next := Function.update l.next prev (some next)
        prev := Function.update l.prev next (some prev) }

/-- `list_del`. -/
def listDel (entry : ν) : Option (Links ν) :=
  (unlinkEntry l entry).map fun l =>
    { next := Function.update l.next entry none, prev := Function.update l.prev entry none }

/-- `list_del_init`. -/
def listDelInit (entry : ν) : Option (Links ν) :=
  (unlinkEntry l entry).map fun l => l.initHead entry

/-- `list_add`. -/
def listAdd (new head : ν) : Option (Links ν) :=
  (l.next head).map fun next => l.add new head next

/-- `list_add_tail`. -/
def listAddTail (new head : ν) : Option (Links ν) :=
  (l.prev head).map fun prev => l.add new prev head

/-- `list_move`. -/
def listMove (list head : ν) : Option (Links ν) :=
  (unlinkEntry l list).bind fun l => listAdd l list head

/-- `list_move_tail`. -/
def listMoveTail (entry head : ν) : Option (Links ν) :=
  (unlinkEntry l entry).bind fun l => listAddTail l entry head

/-- `replace_node`. -/
def replaceNode (old new : ν) : Option (Links ν) :=
  (l.next old).bind fun next =>
    let l := { l with prev := Function.update l.prev next (some new) }
    (l.prev old).map fun prev =>
      let l := { l with next := Function.update l.next prev (some new) }
      let l := { l with prev := Function.update l.prev new (l.prev old) }
      { l with next := Function.update l.next new (l.next old) }

/-- `_list_splice`. -/
def spliceBetween (list prev next : ν) : Option (Links ν) :=
  if listEmpty l list then some l
  else
    (l.next list).bind fun first =>
      (l.prev list).map fun last => l.splice first last prev next

/-- `list_splice`. -/
def listSplice (list head : ν) : Option (Links ν) :=
  (l.next head).bind fun next => spliceBetween l list head next

/-- `list_splice_tail`. -/
def listSpliceTail (list head : ν) : Option (Links ν) :=
  (l.prev head).bind fun prev => spliceBetween l list prev head

/-- `list_splice_init`. -/
def listSpliceInit (list head : ν) : Option (Links ν) :=
  (listSplice l list head).map fun l => l.initHead list

/-- `list_splice_tail_init`. -/
def listSpliceTailInit (list head : ν) : Option (Links ν) :=
  (listSpliceTail l list head).map fun l => l.initHead list

/-- `list_for_each` from `p` on: the entries it visits. -/
def listForEachFrom (head : ν) : Nat → ν → Option (List ν)
  | 0, _ => none
  | fuel + 1, p =>
      if p = head then some []
      else
        (l.next p).bind fun next => (listForEachFrom head fuel next).map fun rest => p :: rest

/-- `list_for_each`. -/
def listForEach (fuel : Nat) (head : ν) : Option (List ν) :=
  (l.next head).bind fun p => listForEachFrom l head fuel p

/-- `list_for_each_prev`. -/
def listForEachPrev (fuel : Nat) (head : ν) : Option (List ν) := listForEach l.flip fuel head

end Libubox.ListHead
