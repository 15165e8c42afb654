import Libubox.Blob.Tree

/-!
# What the blob encoder writes is what a walk reads

A program over one buffer is a value of `Calls`: leaves with `blob_put`,
containers between `blob_nest_start` and `blob_nest_end`, and copies of all
children of a container of another buffer with `blob_put_raw`.  Running it
keeps `Laid`, and the bytes it appends are the encoding of the trees the calls
stand for (`runCalls_laid`).  With `readAttr_bytes` this is the round trip.
-/

namespace Libubox.Blob

open Bytes BlobTree

/-- Calls on one buffer, in order.  `copy` names the other buffer by its
initial state, root id and calls, and the container by its path of child
indices there. -/
inductive Calls where
  | done
  | put (id : Nat) (data : Mem) (next : Calls)
  | nest (id : Nat) (body next : Calls)
  | copy (other : BlobBuf) (rootId : Nat) (source : Calls) (path : List Nat) (next : Calls)

/-- The bytes `blob_data(c)`, `blob_len(c)` of a container. -/
def blobChildren (c : Mem) : Option Mem :=
  (blobLen c).bind fun len =>
    if len ≤ (blobData c).length then some ((blobData c).take len) else none

/-- The container at a path below `c`, found by walking. -/
def locate : List Nat → Mem → Option Mem
  | [], c => some c
  | i :: path, c =>
      (blobLen c).bind fun len =>
        (visited (intRem len) (blobData c) (intRem len)).bind fun attrs =>
          attrs[i]?.bind (locate path)

/-- Run the calls; `none` is a fault or a reported failure. -/
def runCalls (b : BlobBuf) : Calls → Option BlobBuf
  | .done => some b
  | .put id data next =>
      (blobPut b id data).bind fun (attr, b) => attr.bind fun _ => runCalls b next
  | .nest id body next =>
      (blobNestStart b id).bind fun (cookie, b) =>
        cookie.bind fun cookie =>
          (runCalls b body).bind fun b =>
            (blobNestEnd b cookie).bind fun b => runCalls b next
  | .copy other rootId source path next =>
      (blobBufInit other rootId).bind fun (_, other) =>
        (runCalls other source).bind fun other =>
          (locate path (other.ptr other.head)).bind fun c =>
            (blobChildren c).bind fun data =>
              (blobPutRaw b data).bind fun (attr, b) => attr.bind fun _ => runCalls b next

/-- `blob_buf_init` and then the calls. -/
def encode (b : BlobBuf) (rootId : Nat) (calls : Calls) : Option BlobBuf :=
  (blobBufInit b rootId).bind fun (ok, b) => if ok then runCalls b calls else none

/-! ## The trees the calls stand for -/

/-- The children of the container at a path. -/
def forestAt : List Nat → List BlobTree → List BlobTree
  | [], ts => ts
  | i :: path, ts =>
      match ts[i]? with
      | some (.nest _ children) => forestAt path children
      | _ => []

/-- What the calls add to the container they run in. -/
def Calls.trees : Calls → List BlobTree
  | .done => []
  | .put id data next => .leaf id data :: next.trees
  | .nest id body next => .nest id body.trees :: next.trees
  | .copy _ _ source path next => forestAt path source.trees ++ next.trees

/-- A container with these children stays below 2^24 bytes. -/
def Fits (ts : List BlobTree) : Prop := 4 + (forestBytes ts).length < 2 ^ 24

/-- Ids fit, the other buffers of copies allocate and fit, and what is copied
is the non-empty contents of a container. -/
def Calls.Valid : Calls → Prop
  | .done => True
  | .put id _ next => id < 2 ^ 7 ∧ next.Valid
  | .nest id body next => id < 2 ^ 7 ∧ body.Valid ∧ next.Valid
  | .copy other rootId source path next =>
      other.Sound ∧ rootId < 2 ^ 7 ∧ source.Valid ∧ Fits source.trees ∧
        forestAt path source.trees ≠ [] ∧ next.Valid

theorem forestIdsFit_forestAt :
    ∀ (path : List Nat) (ts : List BlobTree), ForestIdsFit ts → ForestIdsFit (forestAt path ts) := by
  intro path
  induction path with
  | nil => exact fun ts h => h
  | cons i path ih =>
      intro ts h
      rw [forestAt]
      split
      · next id children hi => exact ih children (h.mem (List.mem_of_getElem? hi)).2
      · trivial

theorem Calls.Valid.idsFit {calls : Calls} (h : calls.Valid) : ForestIdsFit calls.trees := by
  induction calls with
  | done => trivial
  | put id data next ih => exact ⟨h.1, ih h.2⟩
  | nest id body next ihbody ih => exact ⟨⟨h.1, ihbody h.2.1⟩, ih h.2.2⟩
  | copy other rootId source path next ihsource ih =>
      obtain ⟨-, -, hsource, -, -, hnext⟩ := h
      exact (forestIdsFit_forestAt path _ (ihsource hsource)).append (ih hnext)

/-! ## Finding a container again -/

/-- The attributes a loop over a forest visits. -/
theorem visited_forest (rest : Mem) :
    ∀ (ts : List BlobTree) (fuel : Nat), ForestIdsFit ts → (forestBytes ts).length < 2 ^ 24 →
      (forestBytes ts).length ≤ fuel →
      ∃ attrs, visited fuel (forestBytes ts ++ rest) (forestBytes ts).length = some attrs ∧
        ∀ (i : Nat) (t : BlobTree), ts[i]? = some t → ∃ r, attrs[i]? = some (t.bytes ++ r) := by
  intro ts
  induction ts with
  | nil =>
      intro fuel _ _ _
      refine ⟨[], ?_, fun i t h => by simp at h⟩
      cases fuel <;> rfl
  | cons t ts ih =>
      intro fuel hids hsmall hfuel
      obtain ⟨id, payload, hid, hbytes⟩ := hids.1.exists_attrBytes
      have hlen : t.bytes.length = 4 + alignUp 4 payload.length := by
        rw [hbytes, attrBytes_length]
      have hle := le_alignUp_four payload.length
      rw [forestBytes_cons, List.length_append] at hsmall hfuel ⊢
      obtain ⟨fuel, rfl⟩ : ∃ k, fuel = k + 1 := ⟨fuel - 1, by omega⟩
      obtain ⟨attrs, hattrs, hmem⟩ := ih fuel hids.2 (by omega) (by omega)
      have hpad : blobPadLen (t.bytes ++ (forestBytes ts ++ rest)) = some t.bytes.length := by
        rw [hlen, hbytes, blobPadLen_attrBytes hid (by omega), attrBytes_length]
      refine ⟨(t.bytes ++ (forestBytes ts ++ rest)) :: attrs, ?_, ?_⟩
      · rw [visited, if_neg (by omega), List.append_assoc, hpad, Option.bind_some,
          if_pos ⟨by omega, by omega⟩, List.drop_left, Nat.add_sub_cancel_left, hattrs,
          Option.map_some]
      · intro i u hi
        cases i with
        | zero =>
            obtain rfl : t = u := by simpa using hi
            exact ⟨_, rfl⟩
        | succ i => exact hmem i u (by simpa using hi)

/-- Walking a path leads to the container with the forest at that path. -/
theorem locate_nest : ∀ (path : List Nat) (id : Nat) (ts : List BlobTree) (rest : Mem),
    ForestIdsFit ts → id < 2 ^ 7 → 4 + (forestBytes ts).length < 2 ^ 24 →
    forestAt path ts ≠ [] →
    ∃ id' r, locate path ((nest id ts).bytes ++ rest)
        = some ((nest id' (forestAt path ts)).bytes ++ r) ∧ id' < 2 ^ 7 ∧
      (forestBytes (forestAt path ts)).length ≤ (forestBytes ts).length := by
  intro path
  induction path with
  | nil => exact fun id ts rest _ hid _ _ => ⟨id, rest, rfl, hid, Nat.le_refl _⟩
  | cons i path ih =>
      intro id ts rest hids hid hsmall hne
      rw [forestAt] at hne ⊢
      split at hne
      · next id' children hi =>
        have hmem := List.mem_of_getElem? hi
        have hfit := hids.mem hmem
        obtain ⟨before, after, hsplit⟩ := List.append_of_mem hmem
        have hchild : 4 + (forestBytes children).length ≤ (forestBytes ts).length := by
          have hlen := congrArg List.length (bytes_nest id' children)
          rw [List.length_append, header_length] at hlen
          rw [hsplit, forestBytes_append, forestBytes_cons, List.length_append, List.length_append]
          omega
        obtain ⟨attrs, hattrs, hget⟩ := visited_forest rest ts (forestBytes ts).length hids
          (by omega) (Nat.le_refl _)
        obtain ⟨r, hr⟩ := hget i _ hi
        obtain ⟨id'', r', hloc, hid'', hle⟩ := ih id' children r hfit.2 hfit.1 (by omega) hne
        refine ⟨id'', r', ?_, hid'', by omega⟩
        rw [locate, bytes_nest, List.append_assoc, blobLen_header hid (by omega) (by omega),
          blobData_header, Option.bind_some, Nat.add_sub_cancel_left, intRem_of_lt (by omega), hattrs, Option.bind_some,
          hr, Option.bind_some, hloc]
      · exact absurd rfl hne

/-- The children of a container as `blob_put_raw` reads them. -/
theorem blobChildren_nest {id : Nat} {ts : List BlobTree} {rest : Mem} (hid : id < 2 ^ 7)
    (hsmall : 4 + (forestBytes ts).length < 2 ^ 24) :
    blobChildren ((nest id ts).bytes ++ rest) = some (forestBytes ts) := by
  rw [blobChildren, bytes_nest, List.append_assoc, blobLen_header hid hsmall (by omega),
    blobData_header, Option.bind_some, Nat.add_sub_cancel_left, if_pos (by simp), List.take_left]

/-! ## Running the calls -/

theorem OpenAttr.bytes_push_forest (id : Nat) (ts : List BlobTree) :
    OpenAttr.bytes ((⟨false, id, []⟩ : OpenAttr).push (forestBytes ts)) = (nest id ts).bytes := by
  rw [bytes_nest]
  rfl

theorem Laid.ptr_root {b : BlobBuf} {id : Nat} {ts : List BlobTree} {spare : Mem}
    (h : Laid b (OpenAttr.push ⟨false, id, []⟩ (forestBytes ts)) [] spare) :
    b.ptr b.head = (nest id ts).bytes ++ spare := by
  rw [h.ptr_head, ← List.append_assoc, ← OpenAttr.bytes_push_forest]
  rfl

/-- **The calls append the encodings of their trees, in order.**  The induction
carries the whole stack of open containers. -/
theorem runCalls_laid (calls : Calls) :
    ∀ {b : BlobBuf} {f : OpenAttr} {outer : List OpenAttr} {spare : Mem},
      Laid b f outer spare → calls.Valid →
      (usedBytes f outer).length + (forestBytes calls.trees).length < 2 ^ 24 →
      ∃ b' spare', runCalls b calls = some b' ∧
        Laid b' (f.push (forestBytes calls.trees)) outer spare' := by
  induction calls with
  | done =>
      intro b f outer spare h _ _
      exact ⟨b, spare, rfl, by simpa [OpenAttr.push, Calls.trees] using h⟩
  | put id data next ih =>
      intro b f outer spare h hvalid hsmall
      have hbytes : forestBytes (Calls.put id data next).trees
          = attrBytes false id data ++ forestBytes next.trees := rfl
      rw [hbytes, List.length_append] at hsmall
      obtain ⟨c, attr, sparec, hput, hc⟩ := @Laid.blobPut b f outer spare h id data hvalid.1 (by omega)
      obtain ⟨d, spared, hnext, hd⟩ := ih hc hvalid.2 (by rw [usedBytes_push_length]; omega)
      refine ⟨d, spared, ?_, by rwa [OpenAttr.push_push, ← hbytes] at hd⟩
      rw [runCalls, hput]
      exact hnext
  | nest id body next ihbody ih =>
      intro b f outer spare h hvalid hsmall
      have hbytes : forestBytes (Calls.nest id body next).trees
          = (BlobTree.nest id body.trees).bytes ++ forestBytes next.trees := rfl
      have hlen := congrArg List.length (bytes_nest id body.trees)
      rw [List.length_append, header_length] at hlen
      rw [hbytes, List.length_append] at hsmall
      obtain ⟨hid, hbody, hnext⟩ := hvalid
      obtain ⟨c, sparec, hstart, hc⟩ := h.blobNestStart hid (by omega)
      have hused : (usedBytes ⟨false, id, []⟩ (f :: outer)).length
          = (usedBytes f outer).length + 4 := by
        simp only [usedBytes, outerBytes, OpenAttr.bytes, List.length_append, header_length,
          List.length_nil]
        omega
      obtain ⟨d, spared, hrun, hd⟩ := ihbody hc hbody (by omega)
      obtain ⟨e, hend, he⟩ := hd.blobNestEnd
      rw [OpenAttr.bytes_push_forest] at he
      obtain ⟨k, sparek, hrest, hk⟩ := ih he hnext (by rw [usedBytes_push_length]; omega)
      refine ⟨k, sparek, ?_, by rwa [OpenAttr.push_push, ← hbytes] at hk⟩
      rw [runCalls, hstart]
      simp only [Option.bind_some, hrun, hend, hrest]
  | copy other rootId source path next ihsource ih =>
      intro b f outer spare h hvalid hsmall
      have hbytes : forestBytes (Calls.copy other rootId source path next).trees
          = forestBytes (forestAt path source.trees) ++ forestBytes next.trees :=
        forestBytes_append _ _
      rw [hbytes, List.length_append] at hsmall
      obtain ⟨hother, hroot, hsource, hsize, hne, hnext⟩ := hvalid
      obtain ⟨o, spareo, hinit, ho⟩ := blobBufInit_eq hother hroot
      have hused : (usedBytes ⟨false, rootId, []⟩ []).length = 4 := by
        simp [usedBytes_length, outerBytes]
      obtain ⟨p, sparep, hrun, hp⟩ := ihsource ho hsource (by rw [hused]; exact hsize)
      obtain ⟨id', r, hloc, hid', hle⟩ := locate_nest path rootId source.trees sparep
        hsource.idsFit hroot hsize hne
      have hmod := forestBytes_length_mod (forestAt path source.trees)
      have hpos := forestBytes_length_pos hne
      have hchildren : blobChildren ((BlobTree.nest id' (forestAt path source.trees)).bytes ++ r)
          = some (forestBytes (forestAt path source.trees)) :=
        blobChildren_nest hid' (by unfold Fits at hsize; omega)
      obtain ⟨c, attr, sparec, hput, hc⟩ := h.blobPutRaw (by omega) hmod (by omega)
      obtain ⟨d, spared, hrest, hd⟩ := ih hc hnext (by rw [usedBytes_push_length]; omega)
      refine ⟨d, spared, ?_, by rwa [OpenAttr.push_push, ← hbytes] at hd⟩
      -- rewritten step by step: the kernel must not evaluate the encoder
      rw [runCalls, hinit, Option.bind_some]
      simp only
      rw [hrun, Option.bind_some, hp.ptr_root, hloc, Option.bind_some, hchildren,
        Option.bind_some, hput, Option.bind_some]
      simp only
      rw [Option.bind_some, hrest]

/-- **Encoding and walking a blob is the identity on trees.** -/
theorem encode_readAttr (b : BlobBuf) (hb : b.Sound) (rootId : Nat) (hroot : rootId < 2 ^ 7)
    (calls : Calls) (hvalid : calls.Valid) (hsize : Fits calls.trees) :
    ∃ b', encode b rootId calls = some b' ∧
      readAttr b'.buflen (fun path => (BlobTree.nest rootId calls.trees).nestedAt path)
        (b'.ptr b'.head) = some (.nest rootId calls.trees) := by
  obtain ⟨c, sparec, hinit, hc⟩ := blobBufInit_eq hb hroot
  have hused : (usedBytes ⟨false, rootId, []⟩ []).length = 4 := by
    simp [usedBytes_length, outerBytes]
  obtain ⟨d, spared, hrun, hd⟩ := runCalls_laid calls hc hvalid (by rw [hused]; exact hsize)
  have hlen := congrArg List.length (bytes_nest rootId calls.trees)
  rw [List.length_append, header_length] at hlen
  refine ⟨d, ?_, ?_⟩
  · rw [encode, hinit]
    exact hrun
  · rw [hd.ptr_root]
    have hmem := congrArg List.length hd.mem_eq
    rw [List.length_append, usedBytes_push_length, hused] at hmem
    unfold Fits at hsize
    refine readAttr_bytes _ _ _ ⟨hroot, hvalid.idsFit⟩ (by omega) ?_
    rw [BlobBuf.buflen]
    omega

/-- A container with an unaligned leaf and a copy of the contents of a nested
container of a second buffer. -/
theorem encode_readAttr_copy :
    ∃ b', encode ⟨0, 0, [], fun k => some (4096 * k)⟩ 1
        (.nest 2 (.put 3 [7, 8, 9, 10, 11] (.copy ⟨0, 0, [], fun _ => some 64⟩ 4
          (.put 5 [] (.nest 6 (.put 7 [1] .done) .done)) [1] .done)) .done) = some b' ∧
      readAttr b'.buflen (fun path => (BlobTree.nest 1
          [.nest 2 [.leaf 3 [7, 8, 9, 10, 11], .leaf 7 [1]]]).nestedAt path) (b'.ptr b'.head)
        = some (.nest 1 [.nest 2 [.leaf 3 [7, 8, 9, 10, 11], .leaf 7 [1]]]) :=
  encode_readAttr ⟨0, 0, [], fun k => some (4096 * k)⟩ ⟨rfl, fun _ => rfl⟩ 1 (by decide)
    (.nest 2 (.put 3 [7, 8, 9, 10, 11] (.copy ⟨0, 0, [], fun _ => some 64⟩ 4
      (.put 5 [] (.nest 6 (.put 7 [1] .done) .done)) [1] .done)) .done)
    ⟨by decide, ⟨by decide, ⟨rfl, fun _ => rfl⟩, by decide,
      ⟨by decide, ⟨by decide, ⟨by decide, trivial⟩, trivial⟩⟩, by unfold Fits; decide,
      by simp [Calls.trees, forestAt], trivial⟩, trivial⟩
    (by unfold Fits; decide)

end Libubox.Blob
