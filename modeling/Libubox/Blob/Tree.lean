import Libubox.Blob.Layout

/-!
# Attribute trees and their encoding

What a blob stands for: a forest of attributes, each a leaf with a payload or
a container of further attributes.  `BlobTree.bytes` says which bytes encode a
tree, and `readAttr` is the walk that reads them back, `blob_for_each_attr` at
every level.

Nothing in the bytes distinguishes a container from a leaf, so a reader has to
know.  It is given as a predicate on paths of child indices.
-/

namespace Libubox.Blob

open Bytes

/-- An attribute with everything below it. -/
inductive BlobTree where
  | leaf (id : Nat) (payload : Mem)
  | nest (id : Nat) (children : List BlobTree)

namespace BlobTree

mutual
/-- The encoding of one attribute. -/
def bytes : BlobTree → Mem
  | leaf id payload => attrBytes false id payload
  | nest id children => attrBytes false id (forestBytes children)

/-- The encoding of consecutive attributes. -/
def forestBytes : List BlobTree → Mem
  | [] => []
  | t :: ts => t.bytes ++ forestBytes ts
end

mutual
/-- Every id fits its seven bits. -/
def IdsFit : BlobTree → Prop
  | leaf id _ => id < 2 ^ 7
  | nest id children => id < 2 ^ 7 ∧ ForestIdsFit children

def ForestIdsFit : List BlobTree → Prop
  | [] => True
  | t :: ts => t.IdsFit ∧ ForestIdsFit ts
end

/-- Whether the attribute at a path of child indices is a container. -/
def nestedAt : List Nat → BlobTree → Bool
  | [], leaf _ _ => false
  | [], nest _ _ => true
  | _ :: _, leaf _ _ => false
  | i :: path, nest _ children =>
      match children[i]? with
      | some t => nestedAt path t
      | none => false

@[simp] theorem nestedAt_nil_nest (id : Nat) (children : List BlobTree) :
    (nest id children).nestedAt [] = true := rfl

theorem bytes_length_mod (t : BlobTree) : t.bytes.length % 4 = 0 := by
  cases t with
  | leaf id payload => exact attrBytes_length_mod _ _ _
  | nest id children => exact attrBytes_length_mod _ _ _

@[simp] theorem forestBytes_nil : forestBytes [] = [] := rfl

theorem forestBytes_cons (t : BlobTree) (ts : List BlobTree) :
    forestBytes (t :: ts) = t.bytes ++ forestBytes ts := rfl

theorem forestBytes_length_mod (ts : List BlobTree) : (forestBytes ts).length % 4 = 0 := by
  induction ts with
  | nil => rfl
  | cons t ts ih =>
      have ht := t.bytes_length_mod
      rw [forestBytes_cons, List.length_append]
      omega

theorem forestBytes_append (ts us : List BlobTree) :
    forestBytes (ts ++ us) = forestBytes ts ++ forestBytes us := by
  induction ts with
  | nil => rfl
  | cons t ts ih => rw [List.cons_append, forestBytes_cons, forestBytes_cons, ih, List.append_assoc]

theorem ForestIdsFit.append {ts us : List BlobTree} (hts : ForestIdsFit ts)
    (hus : ForestIdsFit us) : ForestIdsFit (ts ++ us) := by
  induction ts with
  | nil => exact hus
  | cons t ts ih => exact ⟨hts.1, ih hts.2⟩

theorem ForestIdsFit.mem {ts : List BlobTree} (hts : ForestIdsFit ts) {t : BlobTree}
    (ht : t ∈ ts) : t.IdsFit := by
  induction ts with
  | nil => cases ht
  | cons u us ih =>
      rcases List.mem_cons.mp ht with rfl | ht
      · exact hts.1
      · exact ih hts.2 ht

/-- Leaf or container, a tree is one attribute. -/
theorem IdsFit.exists_attrBytes {t : BlobTree} (h : t.IdsFit) :
    ∃ id payload, id < 2 ^ 7 ∧ t.bytes = attrBytes false id payload := by
  cases t with
  | leaf id payload => exact ⟨id, payload, h, rfl⟩
  | nest id children => exact ⟨id, forestBytes children, h.1, rfl⟩

theorem forestBytes_length_pos {ts : List BlobTree} (h : ts ≠ []) :
    0 < (forestBytes ts).length := by
  cases ts with
  | nil => exact absurd rfl h
  | cons t ts =>
      have ht : 0 < t.bytes.length := by
        cases t <;> simp only [bytes, attrBytes_length] <;> omega
      rw [forestBytes_cons, List.length_append]
      omega

/-- The payload of a container needs no padding. -/
theorem bytes_nest (id : Nat) (children : List BlobTree) :
    (nest id children).bytes
      = header false id (4 + (forestBytes children).length) ++ forestBytes children := by
  rw [bytes, attrBytes, padding_eq_nil (forestBytes_length_mod children), List.append_nil]

end BlobTree

/-! ## Reading a tree back -/

/-- Walk an attribute: its id, its payload if it is a leaf, and otherwise its
children in the order `blob_for_each_attr` hands them out.  The first argument
bounds the depth. -/
def readAttr : Nat → (List Nat → Bool) → Mem → Option BlobTree
  | 0, _, _ => none
  | depth + 1, nested, attr =>
      (blobId attr).bind fun id =>
        (blobLen attr).bind fun len =>
          if nested [] then
            (forEachAttr (fun ts child =>
              (readAttr depth (fun path => nested (ts.length :: path)) child).map
                fun t => .next (ts ++ [t]))
              (intRem len) (blobData attr) (intRem len) []).map fun ts => .nest id ts
          else if len ≤ (blobData attr).length then
            some (.leaf id ((blobData attr).take len))
          else none

/-- One turn of the loop over a well-formed attribute. -/
theorem forEachAttr_attr {σ : Type} (body : σ → Mem → Option (Flow σ)) {fuel rem id : Nat}
    {extended : Bool} {payload rest : Mem} {s : σ} (hid : id < 2 ^ 7)
    (hsmall : 4 + payload.length < 2 ^ 24)
    (hrem : (attrBytes extended id payload).length ≤ rem) :
    forEachAttr body (fuel + 1) (attrBytes extended id payload ++ rest) rem s
      = (body s (attrBytes extended id payload ++ rest)).bind (Flow.andThen
          (forEachAttr body fuel rest (rem - (attrBytes extended id payload).length))) := by
  have hlen := attrBytes_length extended id payload
  rw [forEachAttr, if_neg (by omega), blobPadLen_attrBytes hid hsmall, Option.bind_some, if_pos ⟨hrem, by omega⟩,
    List.drop_left]

/-- A loop over a forest is a fold over its trees, given what the body does
with each of them. -/
theorem forEachAttr_forest {σ : Type} (body : σ → Mem → Option (Flow σ))
    (step : σ → BlobTree → σ) (rest : Mem) :
    ∀ (ts : List BlobTree) (fuel : Nat) (s : σ),
      BlobTree.ForestIdsFit ts → (BlobTree.forestBytes ts).length < 2 ^ 24 →
      (BlobTree.forestBytes ts).length ≤ fuel →
      (∀ before t after r, ts = before ++ t :: after →
        body (before.foldl step s) (t.bytes ++ r)
          = some (.next (step (before.foldl step s) t))) →
      forEachAttr body fuel (BlobTree.forestBytes ts ++ rest) (BlobTree.forestBytes ts).length s
        = some (ts.foldl step s) := by
  intro ts
  induction ts with
  | nil =>
      intro fuel s _ _ _ _
      cases fuel with
      | zero => rfl
      | succ fuel => rfl
  | cons t ts ih =>
      intro fuel s hids hsmall hfuel hbody
      obtain ⟨id, payload, hid, hbytes⟩ := hids.1.exists_attrBytes
      have hlen : t.bytes.length = 4 + alignUp 4 payload.length := by
        rw [hbytes, attrBytes_length]
      have hle := le_alignUp_four payload.length
      rw [BlobTree.forestBytes_cons, List.length_append] at hsmall hfuel ⊢
      obtain ⟨fuel, rfl⟩ : ∃ k, fuel = k + 1 := ⟨fuel - 1, by omega⟩
      rw [List.append_assoc, hbytes, forEachAttr_attr body hid (by omega) (by omega), ← hbytes]
      have hhead := hbody [] t ts (BlobTree.forestBytes ts ++ rest) rfl
      rw [List.foldl_nil] at hhead
      rw [hhead, Option.bind_some, Flow.andThen, Nat.add_sub_cancel_left, List.foldl_cons]
      refine ih fuel (step s t) hids.2 (by omega) (by omega) ?_
      intro before u after r hsplit
      exact hbody (t :: before) u after r (by rw [hsplit, List.cons_append])

theorem foldl_push {α : Type} (acc xs : List α) :
    xs.foldl (fun ts t => ts ++ [t]) acc = acc ++ xs := by
  induction xs generalizing acc with
  | nil => exact (List.append_nil acc).symm
  | cons x xs ih => rw [List.foldl_cons, ih, List.append_assoc, List.singleton_append]

/-- The bytes of a tree are read back as that tree. -/
theorem readAttr_bytes : ∀ (depth : Nat) (t : BlobTree) (rest : Mem), t.IdsFit →
    t.bytes.length < 2 ^ 24 → t.bytes.length ≤ 4 * depth →
    readAttr depth (fun path => t.nestedAt path) (t.bytes ++ rest) = some t := by
  intro depth
  induction depth with
  | zero =>
      intro t rest _ _ hdepth
      cases t <;> simp only [BlobTree.bytes, attrBytes_length] at hdepth <;> omega
  | succ depth ih =>
      intro t rest hids hsmall hdepth
      cases t with
      | leaf id payload =>
          have hle := le_alignUp_four payload.length
          simp only [BlobTree.bytes, attrBytes_length] at hsmall
          simp only [BlobTree.IdsFit] at hids
          rw [readAttr, BlobTree.bytes, attrBytes, List.append_assoc, List.append_assoc,
            blobId_header hids (by omega), blobLen_header hids (by omega) (by omega)]
          simp [BlobTree.nestedAt]
      | nest id children =>
          have hlen := congrArg List.length (BlobTree.bytes_nest id children)
          rw [List.length_append, header_length] at hlen
          obtain ⟨hid, hchildren⟩ : id < 2 ^ 7 ∧ BlobTree.ForestIdsFit children := hids
          rw [readAttr, BlobTree.bytes_nest, List.append_assoc,
            blobId_header hid (by omega), blobLen_header hid (by omega) (by omega)]
          simp only [Option.bind_some, BlobTree.nestedAt_nil_nest, if_true, blobData_header,
            Nat.add_sub_cancel_left]
          rw [intRem_of_lt (by omega)]
          have hloop := forEachAttr_forest
            (fun ts child => (readAttr depth
              (fun path => (BlobTree.nest id children).nestedAt (ts.length :: path)) child).map
                fun t => .next (ts ++ [t]))
            (fun ts t => ts ++ [t]) rest children (BlobTree.forestBytes children).length []
            hchildren (by omega) (Nat.le_refl _) ?_
          · rw [hloop, foldl_push]
            rfl
          · intro before t after r hsplit
            rw [foldl_push, List.nil_append]
            have hnested : (fun path => (BlobTree.nest id children).nestedAt
                (before.length :: path)) = fun path => t.nestedAt path := by
              funext path
              rw [BlobTree.nestedAt, hsplit, List.getElem?_append_right (Nat.le_refl _),
                Nat.sub_self]
              rfl
            have hfit : t.IdsFit ∧ t.bytes.length ≤ (BlobTree.forestBytes children).length := by
              subst hsplit
              rw [BlobTree.forestBytes_append, BlobTree.forestBytes, List.length_append,
                List.length_append]
              exact ⟨hchildren.mem (List.mem_append_right _ List.mem_cons_self), by omega⟩
            have ht := ih t r hfit.1 (by omega) (by omega)
            rw [hnested, ht, Option.map_some]

end Libubox.Blob
