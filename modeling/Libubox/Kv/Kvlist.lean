import Libubox.Blob.Attr
import Libubox.Vlist.Tree

/-!
# Key-value lists

`kvlist.c`: an AVL tree of strings with a value behind each node.  `live` are the nodes
that are allocated; a node that is freed twice, or read after it was freed, makes a call
`none`.

The names that are passed in are not the ones inside of the list, which `kvlist_set`
frees before it copies them.
-/

namespace Libubox.Kv

open Avl Blob Circles Vlist

/-! ## Names -/

/-- The bytes of a string in front of its terminator. -/
abbrev CString : Type := { s : List UInt8 // (0 : UInt8) ∉ s }

/-- `strcmp`. -/
def strcmp : List UInt8 → List UInt8 → Int
  | [], [] => 0
  | [], d :: _ => -d.toNat
  | c :: _, [] => c.toNat
  | c :: s, d :: t => if c = d then strcmp s t else c.toNat - d.toNat

/-- `avl_strcmp`. -/
def avlStrcmp (k1 k2 : CString) : Int := strcmp k1.1 k2.1

theorem strcmp_swap (s t : List UInt8) : strcmp t s = -strcmp s t := by
  induction s generalizing t with
  | nil =>
      cases t with
      | nil => rfl
      | cons d t => simp [strcmp]
  | cons c s ih =>
      cases t with
      | nil => simp [strcmp]
      | cons d t =>
          by_cases hcd : c = d
          · simp [strcmp, hcd, ih]
          · have hdc : ¬d = c := fun h => hcd h.symm
            simp only [strcmp, hcd, hdc, if_false]
            omega

theorem strcmp_trans {s t u : List UInt8} (hs : 0 ∉ s) (ht : 0 ∉ t) (hst : strcmp s t ≤ 0)
    (htu : strcmp t u ≤ 0) : strcmp s u ≤ 0 := by
  induction s generalizing t u with
  | nil => cases u <;> simp [strcmp]
  | cons c s ih =>
      have hc : c ≠ 0 := fun h => hs (h ▸ List.mem_cons_self)
      have hc' := UInt8.pos_iff_ne_zero.mpr hc
      cases t with
      | nil =>
          have hle : (c.toNat : Int) ≤ 0 := hst
          have hpos : 0 < c.toNat := hc'
          omega
      | cons d t =>
          have hd : d ≠ 0 := fun h => ht (h ▸ List.mem_cons_self)
          have hd' := UInt8.pos_iff_ne_zero.mpr hd
          cases u with
          | nil =>
              have hle : (d.toNat : Int) ≤ 0 := htu
              have hpos : 0 < d.toNat := hd'
              omega
          | cons e u =>
              have hrest := @ih t u (fun h => hs (List.mem_cons_of_mem c h))
                (fun h => ht (List.mem_cons_of_mem d h))
              simp only [strcmp, ← UInt8.toNat_inj] at hst htu ⊢
              by_cases hcd : c.toNat = d.toNat
              · rw [if_pos hcd] at hst
                rw [hcd]
                by_cases hde : d.toNat = e.toNat
                · rw [if_pos hde] at htu ⊢
                  exact hrest hst htu
                · rw [if_neg hde] at htu ⊢
                  exact htu
              · rw [if_neg hcd] at hst
                by_cases hde : d.toNat = e.toNat
                · rw [← hde, if_neg hcd]
                  exact hst
                · rw [if_neg hde] at htu
                  rw [if_neg (by omega)]
                  omega

theorem strcmp_eq_zero {s t : List UInt8} (hs : 0 ∉ s) (ht : 0 ∉ t) :
    strcmp s t = 0 ↔ s = t := by
  induction s generalizing t with
  | nil =>
      cases t with
      | nil => simp [strcmp]
      | cons d t =>
          have hd : d ≠ 0 := fun h => ht (h ▸ List.mem_cons_self)
          simpa [strcmp, ← UInt8.toNat_inj] using hd
  | cons c s ih =>
      cases t with
      | nil =>
          have hc : c ≠ 0 := fun h => hs (h ▸ List.mem_cons_self)
          simpa [strcmp, ← UInt8.toNat_inj] using hc
      | cons d t =>
          have hrest := @ih t (fun h => hs (List.mem_cons_of_mem c h))
            (fun h => ht (List.mem_cons_of_mem d h))
          rw [strcmp, List.cons.injEq]
          by_cases hcd : c = d
          · rw [if_pos hcd, hrest]
            exact (and_iff_right hcd).symm
          · rw [if_neg hcd]
            have hne : c.toNat ≠ d.toNat := fun h => hcd (UInt8.toNat_inj.mp h)
            exact iff_of_false (by omega) fun h => hcd h.1

theorem avlStrcmp_preorder : TotalPreorder avlStrcmp where
  swap a b := by
    have hswap := strcmp_swap a.1 b.1
    unfold avlStrcmp
    omega
  trans a b c hab hbc := strcmp_trans a.2 b.2 hab hbc

theorem avlStrcmp_eq_zero {a b : CString} : avlStrcmp a b = 0 ↔ a = b :=
  (strcmp_eq_zero a.2 b.2).trans Subtype.ext_iff.symm

/-! ## Values -/

/-- `kvlist_strlen`. -/
def kvlistStrlen (data : Mem) : Option Nat :=
  if 0 ∈ data then some ((data.takeWhile (· ≠ 0)).length + 1) else none

/-- `kvlist_blob_len`. -/
def kvlistBlobLen (data : Mem) : Option Nat := blobPadLen data

/-- `sizeof(struct kvlist_node)`. -/
def nodeSize : Nat := 56

/-! ## The list -/

variable {ν : Type} [DecidableEq ν]

/-- `struct kvlist`, with the values behind its nodes and the nodes that are allocated. -/
structure Kvlist (ν : Type) where
  avl : AvlTree ν CString
  data : ν → Mem
  live : ν → Bool

/-- `kvlist_init`. -/
def kvlistInit (kv : Kvlist ν) : Kvlist ν :=
  { kv with avl := avlInit kv.avl.listHead false kv.avl.knot kv.avl.key kv.avl.leader kv.avl.list }

namespace Kvlist

/-- `free` of a node. -/
def free (kv : Kvlist ν) (node : ν) : Option (Kvlist ν) :=
  if kv.live node then some { kv with live := Function.update kv.live node false } else none

/-- `next` of a node that is allocated, or of the head. -/
def nextElement (kv : Kvlist ν) (node : ν) : Option ν :=
  if node = kv.avl.listHead ∨ kv.live node then kv.avl.list.next node else none

end Kvlist

variable (getLen : Mem → Option Nat) (fuel : Nat) (kv : Kvlist ν) (name : CString)

/-- `__kvlist_get`. -/
def kvlistFind : Option (Option ν) := kv.avl.avlFind avlStrcmp fuel name

/-- `kvlist_get`: the value. -/
def kvlistGet : Option (Option Mem) :=
  (kvlistFind fuel kv name).map fun node => node.map kv.data

/-- `kvlist_delete`. -/
def kvlistDelete : Option (Bool × Kvlist ν) :=
  (kvlistFind fuel kv name).bind fun node =>
    match node with
    | none => some (false, kv)
    | some node =>
        (kv.avl.avlDelete fuel node).bind fun avl =>
          ({ kv with avl := avl }.free node).map fun kv => (true, kv)

/-- `kvlist_set`, where `calloc_a` returns `node`, as it does for sizes that fit an `int`. -/
def kvlistSet (node : ν) (data : Mem) : Option (Kvlist ν) :=
  (getLen data).bind fun len =>
    (kvlistDelete fuel kv name).bind fun p =>
      if nodeSize + len + (name.1.length + 1) < 2 ^ 31 ∧ len ≤ data.length then
        let kv := { p.2 with
          avl := p.2.avl.setKey node name
          data := Function.update p.2.data node (data.take len)
          live := Function.update p.2.live node true }
        (kv.avl.avlInsert avlStrcmp fuel node).map fun r => { kv with avl := r.2 }
      else none

/-- The loop of `kvlist_free`, `avl_remove_all_elements`. -/
def freeLoop : Nat → Kvlist ν → ν → ν → Option (Kvlist ν)
  | 0, _, _, _ => none
  | n + 1, kv, node, tmp =>
      if 0 < kv.avl.count then
        (kv.free node).bind fun kv =>
          (kv.nextElement tmp).bind fun next =>
            freeLoop n { kv with avl := { kv.avl with count := kv.avl.count - 1 } } tmp next
      else some kv

/-- `kvlist_free`. -/
def kvlistFree : Option (Kvlist ν) :=
  (kv.nextElement kv.avl.listHead).bind fun node =>
    (kv.nextElement node).bind fun tmp =>
      freeLoop fuel { kv with
        avl := { kv.avl with list := kv.avl.list.initHead kv.avl.listHead, root := none } } node tmp

/-- `kvlist_for_each` from a node on: the names and values it visits. -/
def kvlistForEachFrom : Nat → ν → Option (List (CString × Mem))
  | 0, _ => none
  | n + 1, node =>
      if node = kv.avl.listHead then some []
      else
        (kv.nextElement node).bind fun next =>
          (kvlistForEachFrom n next).map fun rest => (kv.avl.key node, kv.data node) :: rest

/-- `kvlist_for_each`. -/
def kvlistForEach : Option (List (CString × Mem)) :=
  (kv.nextElement kv.avl.listHead).bind fun node => kvlistForEachFrom kv fuel node

end Libubox.Kv
