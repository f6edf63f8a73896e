/-
# The references of a run

A run of the canvas collects the chunks and documents that its retrieval components have found.
Both are dictionaries below one record: the chunks under a hash of their id, taken modulo 500, and
the documents under their name. Before it stores an entry the source looks for the key in the
record itself, where only the two names `chunks` and `doc_aggs` are found, so an entry that is
there already is replaced.

Among the entries of one run two chunks share a key when their hashes agree modulo 500. A run
keeps all that it was given exactly when no two of its chunks do, and no later call brings another
document of the same name.
-/

import Mathlib
import RagFlow.Agent.SetVariable

namespace RagFlow.Agent

open Math

/-! ## The hash -/

/-- A 32-bit word rotated to the left. -/
def rotl (n x : ℕ) : ℕ := (x <<< n ||| x >>> (32 - n)) % 2 ^ 32

structure Sha1State where
  a : ℕ
  b : ℕ
  c : ℕ
  d : ℕ
  e : ℕ

/-- One of the 80 rounds, with a word of the schedule and its number. -/
def sha1Round (s : Sha1State) (w : ℕ × ℕ) : Sha1State :=
  let fk :=
    if w.2 < 20 then ((s.b &&& s.c) ||| ((s.b ^^^ 0xFFFFFFFF) &&& s.d), 0x5A827999)
    else if w.2 < 40 then (s.b ^^^ s.c ^^^ s.d, 0x6ED9EBA1)
    else if w.2 < 60 then ((s.b &&& s.c) ||| (s.b &&& s.d) ||| (s.c &&& s.d), 0x8F1BBCDC)
    else (s.b ^^^ s.c ^^^ s.d, 0xCA62C1D6)
  ⟨(rotl 5 s.a + fk.1 + s.e + fk.2 + w.1) % 2 ^ 32, s.a, rotl 30 s.b, s.c, s.d⟩

/-- The schedule of a block, the newest word first until it is complete. -/
def sha1Schedule : ℕ → List ℕ → List ℕ
  | 0, ws => ws.reverse
  | n + 1, ws =>
      let w := ws.getD 2 0 ^^^ ws.getD 7 0 ^^^ ws.getD 13 0 ^^^ ws.getD 15 0
      sha1Schedule n (rotl 1 w :: ws)

def sha1Block (s : Sha1State) (block : List ℕ) : Sha1State :=
  let t := (sha1Schedule 64 block.reverse).zipIdx.foldl sha1Round s
  ⟨(s.a + t.a) % 2 ^ 32, (s.b + t.b) % 2 ^ 32, (s.c + t.c) % 2 ^ 32, (s.d + t.d) % 2 ^ 32,
    (s.e + t.e) % 2 ^ 32⟩

/-- Four bytes make a word, the highest byte first. -/
def sha1Words : List ℕ → List ℕ
  | b₀ :: b₁ :: b₂ :: b₃ :: bs => (((b₀ * 256 + b₁) * 256 + b₂) * 256 + b₃) :: sha1Words bs
  | _ => []

def sha1Blocks : ℕ → List ℕ → List (List ℕ)
  | 0, _ => []
  | n + 1, ws => ws.take 16 :: sha1Blocks n (ws.drop 16)

/-- A one bit, zeros up to eight bytes short of a block, and the length in bits. -/
def sha1Pad (bs : List ℕ) : List ℕ :=
  bs ++ [0x80] ++ List.replicate ((119 - bs.length % 64) % 64) 0 ++
    [56, 48, 40, 32, 24, 16, 8, 0].map fun n => (8 * bs.length) >>> n % 256

/-- `hashlib.sha1`, the digest as a number. -/
def sha1 (bs : List ℕ) : ℕ :=
  let ws := sha1Words (sha1Pad bs)
  let s := (sha1Blocks (ws.length / 16) ws).foldl sha1Block
    ⟨0x67452301, 0xEFCDAB89, 0x98BADCFE, 0x10325476, 0xC3D2E1F0⟩
  (((s.a * 2 ^ 32 + s.b) * 2 ^ 32 + s.c) * 2 ^ 32 + s.d) * 2 ^ 32 + s.e

example : sha1 [97, 98, 99] = 0xa9993e364706816aba3e25717850c26c9cd0d89d := by decide +kernel

def utf8 (s : String) : List ℕ :=
  s.toList.flatMap fun c => (String.utf8EncodeChar c).map UInt8.toNat

def hashStr2int (line : String) (mod : ℕ) : ℕ := sha1 (utf8 line) % mod

/-! ## The record -/

/-- A value as a dictionary key; equal numbers and booleans are one key. -/
inductive Key
  | none
  | num (q : ℚ)
  | str (s : String)
  deriving DecidableEq

/-- Lists, dictionaries and streams are no keys. -/
def Value.key? : Value → Option Key
  | .none => some .none
  | .bool b => some (.num (if b then 1 else 0))
  | .num q => some (.num q)
  | .str s => some (.str s)
  | _ => Option.none

/-- An entry of `Canvas.retrieval`. -/
structure Reference where
  chunks : List (ℕ × Value)
  docAggs : List (Key × Value)

def Reference.empty : Reference := ⟨[], []⟩

/-- The keys of the record itself. -/
def Reference.keys : List Key := [.str "chunks", .str "doc_aggs"]

def getValue (d : List (String × Value)) (k1 k2 : String) : Value :=
  (d.lookup k1).getD ((d.lookup k2).getD .none)

def formatChunk (chunk : List (String × Value)) : Value :=
  .dict [
    ("id", getValue chunk "chunk_id" "id"),
    ("content", getValue chunk "content" "content_with_weight"),
    ("document_id", getValue chunk "doc_id" "document_id"),
    ("document_name", getValue chunk "docnm_kwd" "document_name"),
    ("dataset_id", getValue chunk "kb_id" "dataset_id"),
    ("image_id", getValue chunk "image_id" "img_id"),
    ("positions", getValue chunk "positions" "position_int"),
    ("url", (chunk.lookup "url").getD .none),
    ("similarity", (chunk.lookup "similarity").getD .none),
    ("vector_similarity", (chunk.lookup "vector_similarity").getD .none),
    ("term_similarity", (chunk.lookup "term_similarity").getD .none),
    ("row_id", (chunk.lookup "row_id").getD .none),
    ("doc_type", getValue chunk "doc_type_kwd" "doc_type")]

/-- `chunks_format`; what is no dictionary is left out. -/
def chunksFormat (chunks : List Value) : List Value :=
  chunks.filterMap fun chunk =>
    match chunk with
    | .dict es => some (formatChunk es)
    | _ => none

/-- The id of a formatted chunk, if it is a text. -/
def chunkId (ck : Value) : Option String :=
  match ck.entries.lookup "id" with
  | some (.str id) => some id
  | _ => none

/-- The loop over the chunks; an id that is no text cannot be encoded. -/
def Reference.storeChunks : List Value → Reference → Reference × Option String
  | [], r => (r, none)
  | ck :: cks, r =>
      match chunkId ck with
      | none => (r, some "AttributeError")
      | some id =>
          let cid := hashStr2int id 500
          storeChunks cks
            (if Key.num cid ∉ Reference.keys then { r with chunks := put cid ck r.chunks } else r)

/-- `doc["doc_name"]`, and the test whether it is a key. -/
def docName : Value → Except String Key
  | .dict es =>
      match es.lookup "doc_name" with
      | none => .error "KeyError"
      | some name =>
          match name.key? with
          | none => .error "TypeError"
          | some key => .ok key
  | _ => .error "TypeError"

/-- The loop over the documents. -/
def Reference.storeDocs : List Value → Reference → Reference × Option String
  | [], r => (r, none)
  | doc :: docs, r =>
      match docName doc with
      | .error e => (r, some e)
      | .ok name =>
          storeDocs docs
            (if name ∉ Reference.keys then { r with docAggs := put name doc r.docAggs } else r)

/-- The two loops; an exception in the first one skips the second. -/
def Reference.add (r : Reference) (chunks docInfos : List Value) : Reference × Option String :=
  match Reference.storeChunks (chunksFormat chunks) r with
  | (r, some e) => (r, some e)
  | (r, none) => Reference.storeDocs docInfos r

/-- `Canvas.add_reference`: the retrieval after the call, and the exception if there is one. -/
def addReference (retrieval : List Reference) (chunks docInfos : List Value) :
    List Reference × Option String :=
  match retrieval.getLast? with
  | none => let res := Reference.empty.add chunks docInfos; ([res.1], res.2)
  | some r => let res := r.add chunks docInfos; (retrieval.dropLast ++ [res.1], res.2)

/-- `Canvas.get_reference`. -/
def getReference (retrieval : List Reference) : Reference :=
  retrieval.getLast?.getD Reference.empty

/-- What `Canvas.run` does to the retrieval at its start. -/
def startRetrieval (retrieval : List Reference) : List Reference := retrieval ++ [Reference.empty]

/-- The arguments of a call of `add_reference`. -/
structure Call where
  chunks : List Value
  docInfos : List Value

/-- The calls made within a run. A call that raises leaves what it has stored by then. -/
def addReferences (calls : List Call) (retrieval : List Reference) : List Reference :=
  calls.foldl (fun retrieval call => (addReference retrieval call.chunks call.docInfos).1)
    retrieval

/-! ## What the calls leave -/

section Calls

variable {cks chunks docInfos : List Value} {r : Reference} {calls : List Call}

/-- The entry of a chunk that has an id. -/
def chunkEntry (ck : Value) : ℕ × Value := (hashStr2int ((chunkId ck).getD "") 500, ck)

/-- The entries that the loop over the documents makes before it raises. -/
def docEntries : List Value → List (Key × Value)
  | [] => []
  | doc :: docs =>
      match docName doc with
      | .error _ => []
      | .ok name => if name ∉ Reference.keys then (name, doc) :: docEntries docs
          else docEntries docs

/-- The chunks of all calls, as they are stored. -/
def added (calls : List Call) : List Value := calls.flatMap fun call => chunksFormat call.chunks

/-- The record never has a number as its key, so the test for a chunk passes always. -/
theorem num_notMem_keys (q : ℚ) : Key.num q ∉ Reference.keys := by
  simp [Reference.keys]

theorem storeChunks_eq (h : ∀ ck ∈ cks, (chunkId ck).isSome) :
    Reference.storeChunks cks r =
      ({ r with chunks := (cks.map chunkEntry).foldl (fun d e => put e.1 e.2 d) r.chunks },
        none) := by
  induction cks generalizing r with
  | nil => rfl
  | cons ck cks ih =>
      obtain ⟨id, hid⟩ := Option.isSome_iff_exists.mp (h ck List.mem_cons_self)
      rw [Reference.storeChunks, hid]
      simp only [num_notMem_keys, not_false_eq_true, ↓reduceIte]
      rw [ih fun ck hck => h ck (List.mem_cons_of_mem _ hck), List.map_cons, List.foldl_cons,
        chunkEntry, hid, Option.getD_some]

theorem storeDocs_eq (docs : List Value) (r : Reference) :
    (Reference.storeDocs docs r).1 =
      { r with docAggs := (docEntries docs).foldl (fun d e => put e.1 e.2 d) r.docAggs } := by
  induction docs generalizing r with
  | nil => rfl
  | cons doc docs ih =>
      rw [Reference.storeDocs, docEntries]
      cases docName doc with
      | error e => rfl
      | ok name =>
          by_cases hname : name ∉ Reference.keys
          · simp only [if_pos hname]
            rw [ih, List.foldl_cons]
          · simp only [if_neg hname]
            exact ih r

theorem add_eq (h : ∀ ck ∈ chunksFormat chunks, (chunkId ck).isSome) :
    (r.add chunks docInfos).1 =
      ⟨((chunksFormat chunks).map chunkEntry).foldl (fun d e => put e.1 e.2 d) r.chunks,
        (docEntries docInfos).foldl (fun d e => put e.1 e.2 d) r.docAggs⟩ := by
  rw [Reference.add, storeChunks_eq h]
  exact storeDocs_eq docInfos _

theorem getReference_addReference (retrieval : List Reference) (chunks docInfos : List Value) :
    getReference (addReference retrieval chunks docInfos).1 =
      ((getReference retrieval).add chunks docInfos).1 := by
  rw [addReference, getReference, getReference]
  cases hlast : retrieval.getLast? with
  | none => rfl
  | some r => simp only [List.getLast?_concat, Option.getD_some]

/-- All calls of a run together. -/
theorem getReference_addReferences (retrieval : List Reference)
    (h : ∀ ck ∈ added calls, (chunkId ck).isSome) :
    getReference (addReferences calls (startRetrieval retrieval)) =
      ⟨((added calls).map chunkEntry).foldl (fun d e => put e.1 e.2 d) [],
        (calls.flatMap fun call => docEntries call.docInfos).foldl
          (fun d e => put e.1 e.2 d) []⟩ := by
  induction calls using List.reverseRecOn with
  | nil =>
      rw [addReferences, startRetrieval, getReference, List.foldl_nil, List.getLast?_concat]
      rfl
  | append_singleton calls call ih =>
      rw [added, List.flatMap_append, List.flatMap_singleton] at h
      have hcalls : ∀ ck ∈ added calls, (chunkId ck).isSome :=
        fun ck hck => h ck (List.mem_append_left _ hck)
      have hcall : ∀ ck ∈ chunksFormat call.chunks, (chunkId ck).isSome :=
        fun ck hck => h ck (List.mem_append_right _ hck)
      have hsnoc : addReferences (calls ++ [call]) (startRetrieval retrieval) =
          (addReference (addReferences calls (startRetrieval retrieval)) call.chunks
            call.docInfos).1 := by
        rw [addReferences, List.foldl_append]
        rfl
      rw [hsnoc, getReference_addReference, ih hcalls, add_eq hcall, added, added,
        List.flatMap_append, List.flatMap_singleton, List.map_append, List.foldl_append,
        List.flatMap_append, List.flatMap_singleton, List.foldl_append]

/-- The documents that a call stores under a name: the last one counts. -/
def storedDoc (call : Call) (name : Key) : Option Value :=
  look name (docEntries call.docInfos).reverse

/-- The reference that a run has collected with some calls. -/
def runReference (retrieval : List Reference) (calls : List Call) : Reference :=
  getReference (addReferences calls (startRetrieval retrieval))

/-- Every chunk is present with its content, and no call changes an entry that is there. -/
structure KeepsReferences (retrieval : List Reference) (calls : List Call) : Prop where
  present : ∀ ck ∈ added calls, ∃ cid, look cid (runReference retrieval calls).chunks = some ck
  chunk : ∀ done call rest, calls = done ++ call :: rest → ∀ cid ck,
    look cid (runReference retrieval done).chunks = some ck →
      look cid (runReference retrieval (done ++ [call])).chunks = some ck
  doc : ∀ done call rest, calls = done ++ call :: rest → ∀ name doc,
    look name (runReference retrieval done).docAggs = some doc →
      look name (runReference retrieval (done ++ [call])).docAggs = some doc

/-- No two chunks share a hash modulo 500, and two calls store the same document under a name. -/
structure NoClash (ids : List String) (calls : List Call) : Prop where
  hash : (ids.map fun id => hashStr2int id 500).Nodup
  doc : calls.Pairwise fun c c' => ∀ name doc doc',
    storedDoc c name = some doc → storedDoc c' name = some doc' → doc' = doc

theorem look_docAggs_snoc (retrieval : List Reference) (done : List Call) (call : Call)
    (h : ∀ ck ∈ added (done ++ [call]), (chunkId ck).isSome) (name : Key) :
    look name (runReference retrieval (done ++ [call])).docAggs =
      (storedDoc call name).or (look name (runReference retrieval done).docAggs) := by
  have hdone : ∀ ck ∈ added done, (chunkId ck).isSome := fun ck hck =>
    h ck (by rw [added, List.flatMap_append]; exact List.mem_append_left _ hck)
  rw [runReference, runReference, getReference_addReferences _ h,
    getReference_addReferences _ hdone, List.flatMap_append, List.flatMap_singleton,
    List.foldl_append, look_foldl_put]
  rfl

/-- What is found under a name has been stored there by one of the calls. -/
theorem exists_storedDoc (retrieval : List Reference)
    (h : ∀ ck ∈ added calls, (chunkId ck).isSome) {name : Key} {doc : Value}
    (hdoc : look name (runReference retrieval calls).docAggs = some doc) :
    ∃ c ∈ calls, storedDoc c name = some doc := by
  induction calls using List.reverseRecOn with
  | nil =>
      rw [runReference, getReference_addReferences retrieval h] at hdoc
      cases hdoc
  | append_singleton calls call ih =>
      rw [look_docAggs_snoc retrieval calls call h, Option.or_eq_some_iff] at hdoc
      rcases hdoc with hdoc | ⟨-, hdoc⟩
      · exact ⟨call, List.mem_append_right _ List.mem_cons_self, hdoc⟩
      · rw [added, List.flatMap_append] at h
        obtain ⟨c, hc, hstored⟩ := ih (fun ck hck => h ck (List.mem_append_left _ hck)) hdoc
        exact ⟨c, List.mem_append_left _ hc, hstored⟩

/-- A chunk is only ever found under its own hash. -/
theorem eq_hash_of_look (retrieval : List Reference)
    (h : ∀ ck ∈ added calls, (chunkId ck).isSome) {cid : ℕ} {ck : Value}
    (hck : look cid (runReference retrieval calls).chunks = some ck) : cid = (chunkEntry ck).1 := by
  rw [runReference, getReference_addReferences retrieval h, look_foldl_put, look, Option.or_none]
    at hck
  obtain ⟨ck', -, he⟩ := List.mem_map.mp (List.mem_reverse.mp (mem_of_look hck))
  rw [chunkEntry, Prod.mk.injEq] at he
  rw [chunkEntry, ← he.1, he.2]

/-- The keys under which the chunks are stored, in terms of their ids. -/
theorem keys_chunkEntry {ids : List String} (hids : (added calls).map chunkId = ids.map some) :
    ((added calls).map chunkEntry).map Prod.fst = ids.map fun id => hashStr2int id 500 := by
  have hkeys : ((added calls).map chunkId).map (fun id => hashStr2int (id.getD "") 500) =
      (ids.map some).map fun id => hashStr2int (id.getD "") 500 := by rw [hids]
  rw [List.map_map, List.map_map] at hkeys
  rw [List.map_map]
  exact hkeys

/-- Where all keys differ the chunks are stored one after the other. -/
theorem runReference_chunks (retrieval : List Reference)
    (h : ∀ ck ∈ added calls, (chunkId ck).isSome)
    (hkeys : (((added calls).map chunkEntry).map Prod.fst).Nodup) :
    (runReference retrieval calls).chunks = (added calls).map chunkEntry := by
  rw [runReference, getReference_addReferences retrieval h, foldl_put [] _ hkeys, List.nil_append]

/-- If no call changes an entry, calls agree on the documents that they store, and what a call has
stored is still there at the end. -/
theorem storedDocs_agree (retrieval : List Reference)
    (h : ∀ ck ∈ added calls, (chunkId ck).isSome)
    (hkept : ∀ done call rest, calls = done ++ call :: rest → ∀ name doc,
      look name (runReference retrieval done).docAggs = some doc →
        look name (runReference retrieval (done ++ [call])).docAggs = some doc) :
    (calls.Pairwise fun c c' => ∀ name doc doc',
        storedDoc c name = some doc → storedDoc c' name = some doc' → doc' = doc) ∧
      ∀ c ∈ calls, ∀ name doc, storedDoc c name = some doc →
        look name (runReference retrieval calls).docAggs = some doc := by
  induction calls using List.reverseRecOn with
  | nil => exact ⟨List.Pairwise.nil, nofun⟩
  | append_singleton calls call ih =>
      have hcalls : ∀ ck ∈ added calls, (chunkId ck).isSome := fun ck hck =>
        h ck (by rw [added, List.flatMap_append]; exact List.mem_append_left _ hck)
      obtain ⟨hagree, hpresent⟩ := ih hcalls fun done call' rest heq =>
        hkept done call' (rest ++ [call]) (by rw [heq, List.append_assoc, List.cons_append])
      have hstep := hkept calls call [] rfl
      refine ⟨List.pairwise_append.mpr ⟨hagree, List.pairwise_singleton _ _, ?_⟩, ?_⟩
      · intro c hc c' hc' name doc doc' hdoc hdoc'
        obtain rfl := List.mem_singleton.mp hc'
        have hlook := hstep name doc (hpresent c hc name doc hdoc)
        rw [look_docAggs_snoc retrieval calls c' h, hdoc', Option.some_or] at hlook
        exact Option.some.inj hlook
      · intro c hc name doc hdoc
        rcases List.mem_append.mp hc with hc | hc
        · exact hstep name doc (hpresent c hc name doc hdoc)
        · obtain rfl := List.mem_singleton.mp hc
          rw [look_docAggs_snoc retrieval calls c h, hdoc, Option.some_or]

/-- A run whose chunks have different ids keeps its references exactly when there is no clash. -/
theorem keepsReferences_iff (retrieval : List Reference) {calls : List Call} {ids : List String}
    (hids : (added calls).map chunkId = ids.map some) (hdistinct : ids.Nodup) :
    KeepsReferences retrieval calls ↔ NoClash ids calls := by
  have hsome : ∀ ck ∈ added calls, (chunkId ck).isSome := by
    intro ck hck
    have hmem : chunkId ck ∈ ids.map some := hids ▸ List.mem_map.mpr ⟨ck, hck, rfl⟩
    obtain ⟨id, -, hid⟩ := List.mem_map.mp hmem
    exact hid ▸ rfl
  constructor
  · intro hkeeps
    refine ⟨?_, (storedDocs_agree retrieval hsome hkeeps.doc).1⟩
    refine List.Nodup.map_on ?_ hdistinct
    intro id hid id' hid' hhash
    have hfrom : ∀ id ∈ ids, ∃ ck ∈ added calls, chunkId ck = some id := fun id hid =>
      List.mem_map.mp (hids ▸ List.mem_map.mpr ⟨id, hid, rfl⟩)
    obtain ⟨ck, hck, hckid⟩ := hfrom id hid
    obtain ⟨ck', hck', hckid'⟩ := hfrom id' hid'
    obtain ⟨cid, hlook⟩ := hkeeps.present ck hck
    obtain ⟨cid', hlook'⟩ := hkeeps.present ck' hck'
    -- both are found under the one hash, so they are one chunk
    obtain rfl := eq_hash_of_look retrieval hsome hlook
    obtain rfl := eq_hash_of_look retrieval hsome hlook'
    rw [chunkEntry, hckid, Option.getD_some, hhash] at hlook
    rw [chunkEntry, hckid', Option.getD_some, hlook, Option.some.injEq] at hlook'
    rw [hlook', hckid', Option.some.injEq] at hckid
    exact hckid.symm
  · intro hclash
    have hkeys := (keys_chunkEntry hids).symm ▸ hclash.hash
    refine ⟨?_, ?_, ?_⟩
    · intro ck hck
      refine ⟨(chunkEntry ck).1, ?_⟩
      rw [runReference_chunks retrieval hsome hkeys]
      exact look_of_mem hkeys (List.mem_map.mpr ⟨ck, hck, rfl⟩)
    · intro done call rest heq cid ck hlook
      have hadded : added calls = added (done ++ [call]) ++ added rest := by
        rw [heq, List.append_cons, added, List.flatMap_append]
        rfl
      have hadded' : added (done ++ [call]) = added done ++ chunksFormat call.chunks := by
        rw [added, List.flatMap_append, List.flatMap_singleton]
        rfl
      rw [hadded, List.map_append, List.map_append] at hkeys
      have hkeys' := hkeys.of_append_left
      have hsome' : ∀ ck ∈ added (done ++ [call]), (chunkId ck).isSome := fun ck hck =>
        hsome ck (hadded ▸ List.mem_append_left _ hck)
      rw [runReference_chunks retrieval hsome' hkeys', hadded', List.map_append, look_append]
      rw [hadded', List.map_append, List.map_append] at hkeys'
      have hsome'' : ∀ ck ∈ added done, (chunkId ck).isSome := fun ck hck =>
        hsome' ck (hadded' ▸ List.mem_append_left _ hck)
      rw [runReference_chunks retrieval hsome'' hkeys'.of_append_left] at hlook
      rw [hlook, Option.some_or]
    · intro done call rest heq name doc hlook
      have hpair := hclash.doc
      rw [heq, List.append_cons] at hpair
      have hadded : ∀ ck ∈ added (done ++ [call]), ck ∈ added calls := by
        intro ck hck
        rw [heq, List.append_cons, added, List.flatMap_append]
        exact List.mem_append_left _ hck
      have hdone : ∀ ck ∈ added done, ck ∈ added (done ++ [call]) := by
        intro ck hck
        rw [added, List.flatMap_append]
        exact List.mem_append_left _ hck
      rw [look_docAggs_snoc retrieval done call fun ck hck => hsome ck (hadded ck hck)]
      obtain ⟨c, hc, hstored⟩ :=
        exists_storedDoc retrieval (fun ck hck => hsome ck (hadded ck (hdone ck hck))) hlook
      cases hcall : storedDoc call name with
      | none => rw [Option.none_or, hlook]
      | some doc' =>
          have hpair' := (List.pairwise_append.mp hpair).1
          have hdoc' := (List.pairwise_append.mp hpair').2.2 c hc call List.mem_cons_self
            name doc doc' hstored hcall
          rw [Option.some_or, hdoc']

end Calls

/-- Two chunks in one call whose ids fall on different numbers. -/
theorem keepsReferences_apart :
    KeepsReferences []
        [⟨[.dict [("id", .str "c1")], .dict [("id", .str "c2")]], []⟩] ↔
      NoClash ["c1", "c2"] [⟨[.dict [("id", .str "c1")], .dict [("id", .str "c2")]], []⟩] :=
  keepsReferences_iff [] rfl (by decide)

/-- The hashes of `c1` and `c7` agree modulo 500, and the second call takes the place of the
first. -/
theorem not_keepsReferences :
    ¬ KeepsReferences []
      [⟨[.dict [("id", .str "c1")]], []⟩, ⟨[.dict [("id", .str "c7")]], []⟩] := by
  intro h
  have hadded : added [⟨[.dict [("id", .str "c1")]], []⟩, ⟨[.dict [("id", .str "c7")]], []⟩] =
      [formatChunk [("id", .str "c1")], formatChunk [("id", .str "c7")]] := rfl
  have hid : ∀ id, chunkId (formatChunk [("id", .str id)]) = some id := fun id => rfl
  have hhash : ∀ id, (chunkEntry (formatChunk [("id", .str id)])).1 = hashStr2int id 500 :=
    fun id => by rw [chunkEntry, hid, Option.getD_some]
  have hclash : hashStr2int "c1" 500 = hashStr2int "c7" 500 := by decide +kernel
  have hsome : ∀ ck ∈ added
      [⟨[.dict [("id", .str "c1")]], []⟩, ⟨[.dict [("id", .str "c7")]], []⟩],
      (chunkId ck).isSome := by
    rw [hadded]
    simp [hid]
  obtain ⟨cid, hlook⟩ := h.present (formatChunk [("id", .str "c1")]) (hadded ▸ List.mem_cons_self)
  obtain ⟨cid', hlook'⟩ := h.present (formatChunk [("id", .str "c7")])
    (hadded ▸ List.mem_cons_of_mem _ List.mem_cons_self)
  have hcid := (eq_hash_of_look [] hsome hlook).trans (hhash "c1")
  have hcid' := (eq_hash_of_look [] hsome hlook').trans (hhash "c7")
  rw [hcid', ← hclash, ← hcid, hlook, Option.some.injEq] at hlook'
  have hids : some "c1" = some "c7" := by rw [← hid "c1", ← hid "c7", hlook']
  exact absurd (Option.some.inj hids) (by decide)

end RagFlow.Agent
