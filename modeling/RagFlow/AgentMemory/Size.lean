/-
# The size of a memory

What is picked is the shortest prefix that covers the excess over the counter that was read, among
the messages that the two queries return. The memory stays within its size where this is the
shortest prefix of all messages that covers the excess over the size of the memory.
-/

import Mathlib.Data.List.Nodup
import RagFlow.AgentMemory.Messages

namespace RagFlow.AgentMemory

open Math

variable {T : Type*} [LinearOrder T] {sizes : Sizes} {memory : Memory} {req : Requests}
  {new l : List (Message T)} {st : State T}

/-! ## What is offered and picked -/

def stored (st : State T) (memory : Memory) : List (Message T) :=
  st.messages memory.tenantId memory.id

/-- The forgotten messages by the time they were forgotten, and then the others by age. -/
def fifo (l : List (Message T)) : List (Message T) :=
  sortAsc forgottenTime (l.filter fun m => m.forgetAt.isSome) ++
    sortAsc validTime (l.filter fun m => m.forgetAt.isNone)

/-- What the two queries return. -/
def offered (l : List (Message T)) : List (Message T) :=
  getForgottenMessages l 512 ++ searchValid l 512

omit [LinearOrder T] in
theorem storedSize_pos (sizes : Sizes) (m : Message T) : 0 < storedSize sizes m :=
  Nat.add_pos_left (sizes.text_pos m.content) _

theorem perm_fifo (l : List (Message T)) : (fifo l).Perm l := by
  have hnone : (l.filter fun m => m.forgetAt.isNone) =
      l.filter fun m => !m.forgetAt.isSome := by
    refine List.filter_congr fun m _ => ?_
    cases m.forgetAt <;> rfl
  refine ((List.mergeSort_perm _ _).append (List.mergeSort_perm _ _)).trans ?_
  rw [hnone]
  exact List.filter_append_perm _ _

theorem offered_sublist (l : List (Message T)) : (offered l).Sublist (fifo l) :=
  (List.take_sublist _ _).append (List.take_sublist _ _)

theorem offered_eq_nil_iff : offered l = [] ↔ l = [] := by
  have htake : ∀ l' : List (Message T), l'.take 512 = [] ↔ l' = [] := fun l' => by simp
  have hnil : offered l = [] ↔ fifo l = [] := by
    rw [offered, fifo, List.append_eq_nil_iff, List.append_eq_nil_iff, getForgottenMessages,
      searchValid, htake, htake]
  rw [hnil]
  constructor
  · intro h
    have hperm := perm_fifo l
    rw [h] at hperm
    exact hperm.nil_eq.symm
  · rintro rfl
    exact (perm_fifo []).eq_nil

omit [LinearOrder T] in
theorem pickLoop_eq (s : ℤ) (l : List (Message T)) (ids : List ℕ) (size : ℤ) :
    pickLoop sizes s l (ids, size) =
      (ids ++ (cover (storedSize sizes) (s - size) l).map Message.messageId,
        size + weight (storedSize sizes) (cover (storedSize sizes) (s - size) l)) := by
  induction l generalizing ids size with
  | nil => simp [pickLoop, cover]
  | cons m l ih =>
      rw [pickLoop]
      split
      · next h =>
          rw [ih, cover_cons_of_pos (by omega), weight_cons, List.map_cons, List.append_assoc,
            List.singleton_append, sub_sub, add_assoc]
      · next h =>
          rw [cover_of_nonpos (by omega), List.map_nil, List.append_nil, weight_nil, add_zero]

theorem pick_eq (s : ℤ) (l : List (Message T)) :
    pickMessagesToDeleteByFifo sizes l s =
      ((cover (storedSize sizes) s (offered l)).map Message.messageId,
        weight (storedSize sizes) (cover (storedSize sizes) s (offered l))) := by
  rw [pickMessagesToDeleteByFifo, pickLoop_eq, offered, cover_append, sub_zero, List.nil_append,
    zero_add]
  dsimp only
  split
  · next h =>
      have hrest : cover (storedSize sizes)
          (s - weight (storedSize sizes) (cover (storedSize sizes) s (getForgottenMessages l 512)))
            (searchValid l 512) = [] := cover_of_nonpos (by omega)
      rw [hrest, List.append_nil]
  · next h => rw [pickLoop_eq, List.map_append, weight_append]

/-! ## The counter -/

/-- The counter that is read: the tenant stands for the memory and the memory for the tenant. -/
def counter (sizes : Sizes) (st : State T) (memory : Memory) : ℤ :=
  (st.redis (redisKey memory.tenantId)).getD
    (calculateMemorySize sizes (st.messages memory.id memory.tenantId))

theorem getMemorySizeCache_fst :
    (getMemorySizeCache sizes st memory.tenantId memory.id).1 = counter sizes st memory := by
  rw [getMemorySizeCache, counter]
  cases st.redis (redisKey memory.tenantId) <;> rfl

theorem getMemorySizeCache_messages (uid memoryId : String) :
    (getMemorySizeCache sizes st memoryId uid).2.messages = st.messages := by
  rw [getMemorySizeCache]
  cases st.redis (redisKey memoryId) <;> rfl

/-- A counter that is there is not changed. -/
theorem getMemorySizeCache_redis {size : ℤ} {key : String} (uid memoryId : String)
    (h : st.redis key = some size) :
    (getMemorySizeCache sizes st memoryId uid).2.redis key = some size := by
  rw [getMemorySizeCache]
  cases hkey : st.redis (redisKey memoryId) with
  | some _ => exact h
  | none =>
      have hne : key ≠ redisKey memoryId := fun heq => by
        rw [heq, hkey] at h
        cases h
      exact (if_neg hne).trans h

/-! ## What a call does -/

/-- What is picked for deletion. -/
def picked (sizes : Sizes) (st : State T) (memory : Memory) (new : List (Message T)) :
    List (Message T) :=
  if weight (newSize sizes) new + counter sizes st memory > memory.memorySize then
    cover (storedSize sizes)
      (counter sizes st memory + weight (newSize sizes) new - memory.memorySize)
      (offered (stored st memory))
  else []

/-- What is deleted. -/
def removed (sizes : Sizes) (st : State T) (memory : Memory) (req : Requests)
    (new : List (Message T)) : List (Message T) :=
  if req.deletes then picked sizes st memory new else []

theorem removed_sublist :
    (removed sizes st memory req new).Sublist (fifo (stored st memory)) := by
  rw [removed, picked]
  split
  · split
    · exact cover_prefix.sublist.trans (offered_sublist _)
    · exact List.nil_sublist _
  · exact List.nil_sublist _

/-! ### States -/

omit [LinearOrder T] in
@[simp]
theorem stored_setMessages : stored (setMessages st memory.tenantId memory.id l) memory = l :=
  if_pos ⟨rfl, rfl⟩

omit [LinearOrder T] in
@[simp]
theorem redis_setMessages (uid memoryId : String) :
    (setMessages st uid memoryId l).redis = st.redis := rfl

omit [LinearOrder T] in
@[simp]
theorem stored_incrby (key : String) (size : ℤ) :
    stored (incrby st key size) memory = stored st memory := rfl

omit [LinearOrder T] in
@[simp]
theorem redis_incrby (key : String) (size : ℤ) :
    (incrby st key size).redis key = some ((st.redis key).getD 0 + size) := if_pos rfl

omit [LinearOrder T] in
theorem insertAndCount_saved (hsaved : (insertAndCount sizes memory req new st).1 = .saved) :
    stored (insertAndCount sizes memory req new st).2 memory =
        stored st memory ++ new.filter (fun m => req.inserts m.messageId) ∧
      (insertAndCount sizes memory req new st).2.redis (redisKey memory.id) =
        some ((st.redis (redisKey memory.id)).getD 0 + weight (newSize sizes) new) := by
  unfold insertAndCount at hsaved ⊢
  dsimp only at hsaved ⊢
  split at hsaved
  · cases hsaved
  · next hfail =>
      split at hsaved
      · cases hsaved
      · next hcount =>
          rw [if_neg hfail, if_neg hcount]
          refine ⟨?_, ?_⟩
          · rw [stored_incrby, stored_setMessages]
            rfl
          · rw [redis_incrby, redis_setMessages]

omit [LinearOrder T] in
theorem insertAndCount_not_before : (insertAndCount sizes memory req new st).1.beforeInsert =
    false := by
  unfold insertAndCount
  dsimp only
  split
  · rfl
  · split <;> rfl

/-- The messages that are left. -/
def kept (sizes : Sizes) (st : State T) (memory : Memory) (req : Requests)
    (new : List (Message T)) : List (Message T) :=
  (stored st memory).filter fun m =>
    m.messageId ∉ (removed sizes st memory req new).map Message.messageId

/-- By the counter, the new messages do not fit. -/
def Exceeds (sizes : Sizes) (st : State T) (memory : Memory) (new : List (Message T)) : Prop :=
  weight (newSize sizes) new + counter sizes st memory > memory.memorySize

theorem kept_of_not_exceeds (req : Requests) (h : ¬ Exceeds sizes st memory new) :
    picked sizes st memory new = [] ∧ kept sizes st memory req new = stored st memory := by
  have hpicked : picked sizes st memory new = [] := if_neg h
  refine ⟨hpicked, ?_⟩
  have hremoved : removed sizes st memory req new = [] := by
    rw [removed, hpicked, ite_self]
  rw [kept, hremoved]
  exact List.filter_eq_self.mpr fun m _ => by simp

/-- The state once the counter has been read. -/
def counted (sizes : Sizes) (st : State T) (memory : Memory) : State T :=
  (getMemorySizeCache sizes st memory.tenantId memory.id).2

theorem stored_counted (sizes : Sizes) :
    stored (counted sizes st memory) memory = stored st memory := by
  rw [stored, counted, getMemorySizeCache_messages]
  rfl

theorem embedAndSave_of_not_exceeds (hindex : (!req.hasIndex && !req.created) = false)
    (h : ¬ Exceeds sizes st memory new) : embedAndSave sizes memory req new st =
      insertAndCount sizes memory req new (counted sizes st memory) := by
  rw [Exceeds, ← getMemorySizeCache_fst] at h
  rw [embedAndSave, hindex, if_neg (by decide), counted]
  exact if_neg h

theorem embedAndSave_of_not_fifo (hindex : (!req.hasIndex && !req.created) = false)
    (h : Exceeds sizes st memory new) (hpolicy : memory.forgettingPolicy ≠ .fifo) :
    embedAndSave sizes memory req new st =
      (.refused sizeLimitReached, counted sizes st memory) := by
  rw [Exceeds, ← getMemorySizeCache_fst] at h
  rw [embedAndSave, hindex, if_neg (by decide), counted]
  exact (if_pos h).trans (if_neg hpolicy)

/-- The state once the picked messages have been deleted. -/
def pruned (sizes : Sizes) (st : State T) (memory : Memory) (req : Requests)
    (new : List (Message T)) : State T :=
  setMessages (counted sizes st memory) memory.tenantId memory.id (kept sizes st memory req new)

theorem embedAndSave_of_fifo (hindex : (!req.hasIndex && !req.created) = false)
    (h : Exceeds sizes st memory new) (hpolicy : memory.forgettingPolicy = .fifo) :
    embedAndSave sizes memory req new st =
      if !req.decreases then (.raised, pruned sizes st memory req new)
      else insertAndCount sizes memory req new (incrby (pruned sizes st memory req new)
        (redisKey memory.id) (-weight (storedSize sizes) (picked sizes st memory new))) := by
  have hpicked : picked sizes st memory new = cover (storedSize sizes)
      (counter sizes st memory + weight (newSize sizes) new - memory.memorySize)
      (offered (stored st memory)) := if_pos h
  have hkept : kept sizes st memory req new = if req.deletes then
      (stored st memory).filter fun m =>
        m.messageId ∉ (picked sizes st memory new).map Message.messageId
      else stored st memory := by
    rw [kept, removed]
    split
    · rfl
    · exact List.filter_eq_self.mpr fun m _ => by simp
  rw [pruned, hkept, hpicked, ← stored_counted sizes, ← getMemorySizeCache_fst]
  rw [Exceeds, ← getMemorySizeCache_fst] at h
  rw [embedAndSave, hindex, if_neg (by decide), counted]
  refine (if_pos h).trans ((if_pos hpolicy).trans ?_)
  dsimp only
  rw [pick_eq]
  rfl

theorem redis_counted {size : ℤ} (hcached : st.redis (redisKey memory.id) = some size) :
    (counted sizes st memory).redis (redisKey memory.id) = some size :=
  getMemorySizeCache_redis memory.id memory.tenantId hcached

/-- What a call that saves leaves in the index and in the counter. -/
theorem saved_eq {size : ℤ} (hcached : st.redis (redisKey memory.id) = some size)
    (hsaved : (embedAndSave sizes memory req new st).1 = .saved) :
    stored (embedAndSave sizes memory req new st).2 memory =
        kept sizes st memory req new ++ new.filter (fun m => req.inserts m.messageId) ∧
      (embedAndSave sizes memory req new st).2.redis (redisKey memory.id) =
        some (size - weight (storedSize sizes) (picked sizes st memory new) +
          weight (newSize sizes) new) := by
  cases hindex : !req.hasIndex && !req.created with
  | true =>
      rw [embedAndSave, hindex, if_pos rfl] at hsaved
      cases hsaved
  | false =>
      by_cases hexceeds : Exceeds sizes st memory new
      · by_cases hpolicy : memory.forgettingPolicy = .fifo
        · rw [embedAndSave_of_fifo hindex hexceeds hpolicy] at hsaved ⊢
          split at hsaved
          · cases hsaved
          · next hdecreases =>
              rw [if_neg hdecreases]
              obtain ⟨hstored, hredis⟩ := insertAndCount_saved hsaved
              refine ⟨?_, ?_⟩
              · rw [hstored, stored_incrby, pruned, stored_setMessages]
              · rw [hredis, redis_incrby, pruned, redis_setMessages, redis_counted hcached]
                rfl
        · rw [embedAndSave_of_not_fifo hindex hexceeds hpolicy] at hsaved
          cases hsaved
      · obtain ⟨hpicked, hkept⟩ := kept_of_not_exceeds req hexceeds
        rw [embedAndSave_of_not_exceeds hindex hexceeds] at hsaved ⊢
        obtain ⟨hstored, hredis⟩ := insertAndCount_saved hsaved
        refine ⟨?_, ?_⟩
        · rw [hstored, stored_counted, hkept]
        · rw [hredis, redis_counted hcached, hpicked, weight_nil, sub_zero]
          rfl

/-- A call that fails before it inserts has deleted messages only where the decrement raises. -/
theorem before_eq {size : ℤ} (hcached : st.redis (redisKey memory.id) = some size)
    (hbefore : (embedAndSave sizes memory req new st).1.beforeInsert = true) :
    stored (embedAndSave sizes memory req new st).2 memory = stored st memory ∨
      (!req.hasIndex && !req.created) = false ∧ Exceeds sizes st memory new ∧
        memory.forgettingPolicy = .fifo ∧ req.decreases = false ∧
        stored (embedAndSave sizes memory req new st).2 memory = kept sizes st memory req new ∧
        (embedAndSave sizes memory req new st).2.redis (redisKey memory.id) = some size := by
  cases hindex : !req.hasIndex && !req.created with
  | true =>
      rw [embedAndSave, hindex, if_pos rfl]
      exact .inl rfl
  | false =>
      by_cases hexceeds : Exceeds sizes st memory new
      · by_cases hpolicy : memory.forgettingPolicy = .fifo
        · rw [embedAndSave_of_fifo hindex hexceeds hpolicy] at hbefore ⊢
          split at hbefore
          · next hdecreases =>
              rw [if_pos hdecreases]
              refine .inr ⟨rfl, hexceeds, hpolicy, by simpa using hdecreases, ?_, ?_⟩
              · rw [pruned, stored_setMessages]
              · rw [pruned, redis_setMessages, redis_counted hcached]
          · rw [insertAndCount_not_before] at hbefore
            cases hbefore
        · rw [embedAndSave_of_not_fifo hindex hexceeds hpolicy]
          exact .inl (stored_counted sizes)
      · rw [embedAndSave_of_not_exceeds hindex hexceeds, insertAndCount_not_before] at hbefore
        cases hbefore

/-! ## Within the size -/

def total (sizes : Sizes) (st : State T) (memory : Memory) : ℤ :=
  weight (storedSize sizes) (stored st memory)

/-- The shortest prefix of the messages, oldest first, that covers the excess. -/
def needed (sizes : Sizes) (st : State T) (memory : Memory) (new : List (Message T)) :
    List (Message T) :=
  cover (storedSize sizes)
    (total sizes st memory + weight (newSize sizes) new - memory.memorySize)
    (fifo (stored st memory))

/-- The new messages are stored in the place of those that they need, and the counter agrees. -/
structure WithinSize (sizes : Sizes) (memory : Memory) (new : List (Message T))
    (st st' : State T) : Prop where
  within : total sizes st' memory ≤ memory.memorySize
  counter : st'.redis (redisKey memory.id) = some (total sizes st' memory)
  inserted : ∀ m ∈ new, m ∈ stored st' memory
  evicted : ∀ m ∈ stored st memory, m ∉ stored st' memory ↔ m ∈ needed sizes st memory new

/-- The counter that is read asks for what is needed, within what the two queries return. -/
def AsksForNeeded (sizes : Sizes) (st : State T) (memory : Memory) (new : List (Message T)) :
    Prop :=
  let excess := counter sizes st memory + weight (newSize sizes) new - memory.memorySize
  needed sizes st memory new <+: offered (stored st memory) ∧
    (∀ p, p <+: needed sizes st memory new → p ≠ needed sizes st memory new →
      weight (storedSize sizes) p < excess) ∧
    (excess ≤ weight (storedSize sizes) (needed sizes st memory new) ∨
      needed sizes st memory new = offered (stored st memory))

section Ids

variable (hids : ((stored st memory ++ new).map Message.messageId).Nodup)
include hids

theorem mem_kept_iff {m : Message T} (hm : m ∈ stored st memory) :
    m ∈ kept sizes st memory req new ↔ m ∉ removed sizes st memory req new := by
  have hsub : ∀ x ∈ removed sizes st memory req new, x ∈ stored st memory := fun x hx =>
    (perm_fifo _).mem_iff.mp (removed_sublist.subset hx)
  have hnodup := (List.map_append ▸ hids : (_ ++ _ : List ℕ).Nodup).of_append_left
  rw [kept, List.mem_filter, decide_eq_true_eq]
  constructor
  · rintro ⟨_, hid⟩ hmem
    exact hid (List.mem_map_of_mem hmem)
  · refine fun hmem => ⟨hm, fun hid => ?_⟩
    obtain ⟨x, hx, hxm⟩ := List.mem_map.mp hid
    exact hmem (List.inj_on_of_nodup_map hnodup (hsub x hx) hm hxm ▸ hx)

theorem nodup_fifo : (fifo (stored st memory)).Nodup := by
  rw [(perm_fifo _).nodup_iff]
  exact (List.map_append ▸ hids : (_ ++ _ : List ℕ).Nodup).of_append_left.of_map _

/-- Deleting takes as much off the size as is deleted. -/
theorem weight_kept :
    weight (storedSize sizes) (kept sizes st memory req new) =
      total sizes st memory - weight (storedSize sizes) (removed sizes st memory req new) := by
  have hkept : kept sizes st memory req new =
      (stored st memory).filter fun m => m ∉ removed sizes st memory req new := by
    rw [kept]
    refine List.filter_congr fun m hm => decide_eq_decide.mpr ?_
    rw [← mem_kept_iff hids hm, kept, List.mem_filter, decide_eq_true_eq, and_iff_right hm]
  rw [hkept, total, weight_perm ((perm_fifo (stored st memory)).symm.filter _),
    weight_filter_not_mem removed_sublist (nodup_fifo hids),
    weight_perm (perm_fifo (stored st memory))]

/-- What is stored after a call that saves lacks exactly what has been removed. -/
theorem not_mem_saved_iff {m : Message T} (hm : m ∈ stored st memory) :
    m ∉ kept sizes st memory req new ++ new.filter (fun m => req.inserts m.messageId) ↔
      m ∈ removed sizes st memory req new := by
  have hnew : m ∉ new.filter fun m => req.inserts m.messageId := by
    intro hmem
    have hdisjoint := (List.nodup_append.mp (List.map_append ▸ hids : (_ ++ _ : List ℕ).Nodup)).2.2
    exact hdisjoint _ (List.mem_map_of_mem hm) _ (List.mem_map_of_mem (List.mem_of_mem_filter hmem))
      rfl
  rw [List.mem_append, or_iff_left hnew, mem_kept_iff hids hm, not_not]

theorem evicted_iff :
    (∀ m ∈ stored st memory,
        m ∉ kept sizes st memory req new ++ new.filter (fun m => req.inserts m.messageId) ↔
          m ∈ needed sizes st memory new) ↔
      removed sizes st memory req new = needed sizes st memory new := by
  constructor
  · intro h
    refine eq_of_sublist_of_mem_iff removed_sublist cover_prefix.sublist (nodup_fifo hids)
      fun m hm => ?_
    have hm' := (perm_fifo _).mem_iff.mp hm
    rw [← not_mem_saved_iff hids hm']
    exact h m hm'
  · intro h m hm
    rw [not_mem_saved_iff hids hm, h]

theorem inserted_iff :
    (∀ m ∈ new, m ∈ kept sizes st memory req new ++
        new.filter (fun m => req.inserts m.messageId)) ↔
      ∀ m ∈ new, req.inserts m.messageId = true := by
  refine forall₂_congr fun m hm => ?_
  have hkept : m ∉ kept sizes st memory req new := by
    intro hmem
    have hdisjoint := (List.nodup_append.mp (List.map_append ▸ hids : (_ ++ _ : List ℕ).Nodup)).2.2
    exact hdisjoint _ (List.mem_map_of_mem (List.mem_of_mem_filter hmem)) _
      (List.mem_map_of_mem hm) rfl
  rw [List.mem_append, or_iff_right hkept, List.mem_filter, and_iff_right hm]

end Ids

/-- The excess is covered, as the new messages alone fit. -/
theorem le_weight_needed (st : State T) (hnew : weight (newSize sizes) new ≤ memory.memorySize) :
    total sizes st memory + weight (newSize sizes) new - memory.memorySize ≤
      weight (storedSize sizes) (needed sizes st memory new) := by
  refine le_weight_cover ?_
  rw [weight_perm (perm_fifo (stored st memory))]
  have htotal : total sizes st memory = weight (storedSize sizes) (stored st memory) := rfl
  omega

theorem asksForNeeded_iff (h : Exceeds sizes st memory new) :
    AsksForNeeded sizes st memory new ↔
      picked sizes st memory new = needed sizes st memory new := by
  have hpicked : picked sizes st memory new = cover (storedSize sizes)
      (counter sizes st memory + weight (newSize sizes) new - memory.memorySize)
      (offered (stored st memory)) := if_pos h
  rw [hpicked, cover_eq_iff]
  rfl

/-- With enough that fits by the counter, nothing is needed and sizes do not change by storing;
otherwise the counter asks for what is needed and the deletion takes effect, or nothing is needed,
nothing is deleted and storing makes up for what the counter has lost. -/
def Agrees (sizes : Sizes) (memory : Memory) (req : Requests) (new : List (Message T))
    (st : State T) : Prop :=
  (∀ m ∈ new, req.inserts m.messageId = true) ∧
    ((¬ Exceeds sizes st memory new ∧ needed sizes st memory new = [] ∧
        weight (newSize sizes) new = weight (storedSize sizes) new) ∨
      (Exceeds sizes st memory new ∧ req.deletes = true ∧ AsksForNeeded sizes st memory new ∧
        weight (newSize sizes) new = weight (storedSize sizes) new) ∨
      (Exceeds sizes st memory new ∧ req.deletes = false ∧ needed sizes st memory new = [] ∧
        weight (newSize sizes) new = weight (storedSize sizes) new +
          weight (storedSize sizes) (picked sizes st memory new)))

theorem withinSize_iff (hcached : st.redis (redisKey memory.id) = some (total sizes st memory))
    (hids : ((stored st memory ++ new).map Message.messageId).Nodup)
    (hnew : weight (newSize sizes) new ≤ memory.memorySize)
    (hsaved : (embedAndSave sizes memory req new st).1 = .saved) :
    WithinSize sizes memory new st (embedAndSave sizes memory req new st).2 ↔
      Agrees sizes memory req new st := by
  obtain ⟨hstored, hredis⟩ := saved_eq hcached hsaved
  have hcovered := le_weight_needed st hnew
  have htotal : (∀ m ∈ new, req.inserts m.messageId = true) →
      total sizes (embedAndSave sizes memory req new st).2 memory =
        total sizes st memory - weight (storedSize sizes) (removed sizes st memory req new) +
          weight (storedSize sizes) new := by
    intro hall
    rw [total, hstored, weight_append, weight_kept hids, List.filter_eq_self.mpr hall]
  constructor
  · rintro ⟨_, hcounter, hinserted, hevicted⟩
    rw [hstored] at hinserted hevicted
    have hall := (inserted_iff hids).mp hinserted
    have hremoved := (evicted_iff hids).mp hevicted
    rw [hredis, htotal hall, Option.some.injEq] at hcounter
    refine ⟨hall, ?_⟩
    by_cases hexceeds : Exceeds sizes st memory new
    · cases hdeletes : req.deletes with
      | true =>
          have hpicked : removed sizes st memory req new = picked sizes st memory new := by
            rw [removed, if_pos hdeletes]
          rw [hpicked] at hremoved hcounter
          exact .inr (.inl ⟨hexceeds, rfl, (asksForNeeded_iff hexceeds).mpr hremoved, by omega⟩)
      | false =>
          have hnone : removed sizes st memory req new = [] := by
            rw [removed, hdeletes, if_neg (by decide)]
          rw [hnone] at hremoved hcounter
          rw [weight_nil] at hcounter
          exact .inr (.inr ⟨hexceeds, rfl, hremoved.symm, by omega⟩)
    · obtain ⟨hpicked, _⟩ := kept_of_not_exceeds req hexceeds
      have hnone : removed sizes st memory req new = [] := by
        rw [removed, hpicked, ite_self]
      rw [hnone] at hremoved hcounter
      rw [hpicked, weight_nil] at hcounter
      exact .inl ⟨hexceeds, hremoved.symm, by omega⟩
  · rintro ⟨hall, hagrees⟩
    have hweight : weight (storedSize sizes) new ≤ weight (newSize sizes) new ∧
        removed sizes st memory req new = needed sizes st memory new ∧
        weight (newSize sizes) new - weight (storedSize sizes) (picked sizes st memory new) =
          weight (storedSize sizes) new -
            weight (storedSize sizes) (removed sizes st memory req new) := by
      rcases hagrees with ⟨hexceeds, hneeded, hsame⟩ | ⟨hexceeds, hdeletes, hasks, hsame⟩ |
        ⟨hexceeds, hdeletes, hneeded, hlost⟩
      · obtain ⟨hpicked, _⟩ := kept_of_not_exceeds req hexceeds
        rw [removed, hpicked, ite_self, hneeded, hsame]
        exact ⟨le_rfl, rfl, rfl⟩
      · rw [removed, if_pos hdeletes, (asksForNeeded_iff hexceeds).mp hasks, hsame]
        exact ⟨le_rfl, rfl, rfl⟩
      · have hpos := weight_nonneg (w := storedSize sizes) (l := picked sizes st memory new)
        rw [removed, hdeletes, if_neg (by decide), hneeded, weight_nil]
        exact ⟨by omega, rfl, by omega⟩
    obtain ⟨hle, hremoved, hcounter⟩ := hweight
    refine ⟨?_, ?_, ?_, ?_⟩
    · rw [htotal hall, hremoved]
      omega
    · rw [hredis, htotal hall]
      congr 1
      omega
    · rw [hstored]
      exact (inserted_iff hids).mpr hall
    · rw [hstored]
      exact (evicted_iff hids).mpr hremoved

/-! ## Failures before the insertion -/

/-- Messages are deleted and the decrement raises. -/
def LosesCount (sizes : Sizes) (memory : Memory) (req : Requests) (new : List (Message T))
    (st : State T) : Prop :=
  (!req.hasIndex && !req.created) = false ∧ Exceeds sizes st memory new ∧
    memory.forgettingPolicy = .fifo ∧ req.decreases = false ∧ req.deletes = true ∧
      stored st memory ≠ []

theorem removed_eq_nil_iff (h : Exceeds sizes st memory new) :
    removed sizes st memory req new = [] ↔ req.deletes = false ∨ stored st memory = [] := by
  have hpositive : ¬ counter sizes st memory + weight (newSize sizes) new -
      (memory.memorySize : ℤ) ≤ 0 := by
    rw [Exceeds] at h
    omega
  rw [removed, picked, if_pos (show weight (newSize sizes) new + counter sizes st memory >
    memory.memorySize from h)]
  cases req.deletes with
  | false => simp
  | true =>
      rw [if_pos rfl, cover_nil_iff, or_iff_right hpositive, offered_eq_nil_iff]
      simp

theorem before_iff (hcached : st.redis (redisKey memory.id) = some (total sizes st memory))
    (hids : ((stored st memory ++ new).map Message.messageId).Nodup)
    (hbefore : (embedAndSave sizes memory req new st).1.beforeInsert = true) :
    (stored (embedAndSave sizes memory req new st).2 memory = stored st memory ∨
        (embedAndSave sizes memory req new st).2.redis (redisKey memory.id) =
          some (total sizes (embedAndSave sizes memory req new st).2 memory)) ↔
      ¬ LosesCount sizes memory req new st := by
  constructor
  · rintro hgood ⟨hindex, hexceeds, hpolicy, hdecreases, hdeletes, hne⟩
    have hremoved : removed sizes st memory req new ≠ [] := by
      rw [Ne, removed_eq_nil_iff hexceeds]
      simp [hdeletes, hne]
    obtain ⟨m, rest, hcons⟩ := List.exists_cons_of_ne_nil hremoved
    have hmem : m ∈ removed sizes st memory req new := hcons ▸ List.mem_cons_self
    have hm : m ∈ stored st memory :=
      (perm_fifo _).mem_iff.mp (removed_sublist.subset hmem)
    rw [embedAndSave_of_fifo hindex hexceeds hpolicy, hdecreases, if_pos (by decide)] at hgood
    dsimp only at hgood
    rcases hgood with hsame | hcounter
    · rw [pruned, stored_setMessages] at hsame
      exact (mem_kept_iff hids hm).mp (hsame.symm ▸ hm) hmem
    · rw [total, pruned, redis_setMessages, redis_counted hcached, stored_setMessages,
        weight_kept hids, Option.some.injEq, hcons, weight_cons] at hcounter
      have hpos := storedSize_pos sizes m
      have hrest := weight_nonneg (w := storedSize sizes) (l := rest)
      omega
  · intro hloses
    rcases before_eq hcached hbefore with hsame |
      ⟨hindex, hexceeds, hpolicy, hdecreases, hkept, _⟩
    · exact .inl hsame
    · refine .inl ?_
      have hremoved : removed sizes st memory req new = [] := by
        rw [removed_eq_nil_iff hexceeds]
        by_contra hnot
        rw [not_or, Bool.not_eq_false] at hnot
        exact hloses ⟨hindex, hexceeds, hpolicy, hdecreases, hnot.1, hnot.2⟩
      rw [hkept, kept, hremoved]
      exact List.filter_eq_self.mpr fun m _ => by simp

/-- For a memory whose counter is its size and new messages that fit by themselves: a call that
saves keeps the memory within its size exactly if the counter it reads agrees, and a call that
fails before it inserts has the counter agree with the index unless the decrement raises. -/
theorem memory_size_iff (sizes : Sizes) (memory : Memory) (req : Requests)
    (new : List (Message T)) (st : State T)
    (hcached : st.redis (redisKey memory.id) = some (total sizes st memory))
    (hids : ((stored st memory ++ new).map Message.messageId).Nodup)
    (hnew : weight (newSize sizes) new ≤ memory.memorySize) :
    let run := embedAndSave sizes memory req new st
    (memory.forgettingPolicy = .fifo → run.1 = .saved →
        (WithinSize sizes memory new st run.2 ↔ Agrees sizes memory req new st)) ∧
      (run.1.beforeInsert = true →
        ((stored run.2 memory = stored st memory ∨
            run.2.redis (redisKey memory.id) = some (total sizes run.2 memory)) ↔
          ¬ LosesCount sizes memory req new st)) :=
  ⟨fun _ hsaved => withinSize_iff hcached hids hnew hsaved, before_iff hcached hids⟩

/-! ### One message more -/

def asciiSizes : Sizes where
  text s := 49 + s.length
  element := 24
  storedElement := 24
  text_pos _ := Nat.add_pos_left (by decide) _

def firstMessage : Message ℕ := ⟨1, "", 1, 0, none, Nat.one_pos⟩

def secondMessage : Message ℕ := ⟨2, "", 1, 1, none, Nat.one_pos⟩

/-- A memory that has the first message, with the counters of the memory and of its tenant. -/
def oneMessage (memoryCounter tenantCounter : ℤ) : State ℕ where
  messages uid memoryId := if uid = "t" ∧ memoryId = "m" then [firstMessage] else []
  redis key :=
    if key = "memory_m" then some memoryCounter
    else if key = "memory_t" then some tenantCounter
    else none

def smallMemory : Memory := ⟨"m", "t", 100, .fifo⟩

def allSucceed : Requests := ⟨true, true, true, true, fun _ => true, [.answered []], true⟩

/-- The second message takes the place of the first if both counters have the size. -/
theorem memory_size_replaced :
    WithinSize asciiSizes smallMemory [secondMessage] (oneMessage 73 73)
      (embedAndSave asciiSizes smallMemory allSucceed [secondMessage] (oneMessage 73 73)).2 := by
  have hfifo : fifo (stored (oneMessage 73 73) smallMemory) = [firstMessage] := by
    simp [fifo, stored, oneMessage, smallMemory, sortAsc, firstMessage]
  have hoffered : offered (stored (oneMessage 73 73) smallMemory) = [firstMessage] := by
    simp [offered, getForgottenMessages, searchValid, stored, oneMessage, smallMemory, sortAsc,
      firstMessage]
  have hneeded : needed asciiSizes (oneMessage 73 73) smallMemory [secondMessage] =
      [firstMessage] := by
    rw [needed, hfifo]
    decide +kernel
  have hexceeds : Exceeds asciiSizes (oneMessage 73 73) smallMemory [secondMessage] := by
    unfold Exceeds
    decide +kernel
  refine ((memory_size_iff asciiSizes smallMemory allSucceed [secondMessage] (oneMessage 73 73)
    (by decide +kernel) (by decide +kernel) (by decide +kernel)).1 rfl ?_).mpr
      ⟨fun _ _ => rfl, .inr (.inl ⟨hexceeds, rfl, ?_, by decide +kernel⟩)⟩
  · rw [embedAndSave_of_fifo rfl hexceeds rfl]
    rfl
  · rw [asksForNeeded_iff hexceeds, hneeded]
    refine (if_pos hexceeds).trans ?_
    rw [hoffered]
    decide +kernel

/-- The counter of the tenant is read, and the memory grows beyond its size. -/
theorem memory_size_exceeded :
    (oneMessage 73 0).redis (redisKey smallMemory.id) =
        some (total asciiSizes (oneMessage 73 0) smallMemory) ∧
      weight (newSize asciiSizes) [secondMessage] ≤ smallMemory.memorySize ∧
      (embedAndSave asciiSizes smallMemory allSucceed [secondMessage] (oneMessage 73 0)).1 =
        .saved ∧
      ¬ WithinSize asciiSizes smallMemory [secondMessage] (oneMessage 73 0)
        (embedAndSave asciiSizes smallMemory allSucceed [secondMessage] (oneMessage 73 0)).2 := by
  refine ⟨by decide +kernel, by decide +kernel, by decide +kernel, fun h => ?_⟩
  have hwithin := h.within
  revert hwithin
  decide +kernel

end RagFlow.AgentMemory
