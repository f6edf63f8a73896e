/-
# Assigning to a workflow variable

A component may write into the outputs of another one, under the references with which outputs are
read. Below the root output such a reference is a path of keys, and the write goes through nested
dictionaries: a key that leads to no dictionary gets an empty one, whatever it held. The walk of
the source does this for every key of the path, the last one too, and puts the value under the
last key once more, inside the dictionary it has come to.

`writeAt` is the write that a path should mean. The walk is that write for the path with its last
key repeated, so the value is never found where it was assigned but one level below.

Values are trees here; an object that two variables share is out of scope.
-/

import RagFlow.Agent.Variable
import RagFlow.Math.Assoc
import Mathlib.Order.MinMax

namespace RagFlow.Agent

open Math

namespace Value

/-- The entries of a dictionary; any other value counts as empty. -/
def entries : Value → List (String × Value)
  | .dict es => es
  | _ => []

def isDict : Value → Bool
  | .dict _ => true
  | _ => false

mutual

/-- How deep lists and dictionaries are nested in a value. -/
def depth : Value → ℕ
  | .list items => depthList items + 1
  | .dict es => depthDict es + 1
  | _ => 0

def depthList : List Value → ℕ
  | [] => 0
  | a :: as => max (depth a) (depthList as)

def depthDict : List (String × Value) → ℕ
  | [] => 0
  | (_, a) :: as => max (depth a) (depthDict as)

end

theorem depth_le_depthDict {es : List (String × Value)} {k : String} {v : Value}
    (h : es.lookup k = some v) : v.depth ≤ depthDict es := by
  induction es with
  | nil => cases h
  | cons e es ih =>
      rw [List.lookup] at h
      rw [depthDict]
      split at h
      · rw [Option.some.injEq] at h
        exact h ▸ le_max_left e.2.depth (depthDict es)
      · exact (ih h).trans (le_max_right e.2.depth (depthDict es))

mutual

/-- Equal values are nested equally deep; the comparison of dictionaries goes one way. -/
theorem depth_le_of_pyEq : ∀ {v w : Value}, v.pyEq w = true → v.depth ≤ w.depth
  | .list as, .list bs, h => by
      rw [pyEq] at h
      rw [depth, depth]
      exact Nat.succ_le_succ (depthList_le_of_pyEq h)
  | .dict as, .dict bs, h => by
      rw [pyEq, Bool.and_eq_true] at h
      rw [depth, depth]
      exact Nat.succ_le_succ (depthDict_le_of_pyEq h.2)
  | .none, w, _ => by rw [depth]; exacts [Nat.zero_le _, nofun, nofun]
  | .bool b, w, _ => by rw [depth]; exacts [Nat.zero_le _, nofun, nofun]
  | .num q, w, _ => by rw [depth]; exacts [Nat.zero_le _, nofun, nofun]
  | .str s, w, _ => by rw [depth]; exacts [Nat.zero_le _, nofun, nofun]
  | .stream, w, _ => by rw [depth]; exacts [Nat.zero_le _, nofun, nofun]

theorem depthList_le_of_pyEq :
    ∀ {as bs : List Value}, pyEqList as bs = true → depthList as ≤ depthList bs
  | [], _, _ => Nat.zero_le _
  | a :: as, b :: bs, h => by
      rw [pyEqList, Bool.and_eq_true] at h
      rw [depthList, depthList]
      exact max_le_max (depth_le_of_pyEq h.1) (depthList_le_of_pyEq h.2)

theorem depthDict_le_of_pyEq :
    ∀ {as bs : List (String × Value)}, pyEqDict as bs = true → depthDict as ≤ depthDict bs
  | [], _, _ => Nat.zero_le _
  | (k, a) :: as, bs, h => by
      rw [pyEqDict, Bool.and_eq_true] at h
      rw [depthDict]
      cases hk : bs.lookup k with
      | none => rw [hk] at h; exact absurd h.1 Bool.false_ne_true
      | some b =>
          rw [hk] at h
          exact max_le ((depth_le_of_pyEq h.1).trans (depth_le_depthDict hk))
            (depthDict_le_of_pyEq h.2)

end

end Value

/-! ## The write -/

/-- Put a value at a path, through dictionaries that are created on the way. -/
@[grind =] def writeAt (v : Value) : List String → Value → Value
  | [], _ => v
  | key :: keys, cur =>
      .dict (put key (writeAt v keys ((cur.entries.lookup key).getD .none)) cur.entries)

/-- The loop of `Graph.set_variable_param_value` over the keys, and the assignment after it. -/
@[grind =] def assignAlong (last : String) (v : Value) :
    List String → List (String × Value) → List (String × Value)
  | [], cur => put last v cur
  | key :: keys, cur =>
      match cur.lookup key with
      | some (.dict inner) => put key (.dict (assignAlong last v keys inner)) cur
      | _ => put key (.dict (assignAlong last v keys [])) cur

/-- `Graph.set_variable_param_value`. Only a dictionary can be asked for a key and then be given
one, so another object fails at the first key. -/
def setVariableParamValue (obj : Value) (keys : List String) (v : Value) :
    Except String Value :=
  match keys.getLast? with
  | none => .ok v
  | some last =>
      match obj with
      | .dict cur => .ok (.dict (assignAlong last v keys cur))
      | _ => .error "TypeError"

/-- `Graph.set_variable_value`. `known` tells which component ids exist. -/
def setVariableValue (known : CpnId → Bool) (data : Data) (ref : VarRef) (v : Value) :
    Except String Data :=
  match ref with
  | .global exp => .ok { data with globals := fun e => if e = exp then some v else data.globals e }
  | .output cpnId rootKey rest =>
      if known cpnId then
        if ".".intercalate rest = "" then .ok (data.setOutput cpnId rootKey v)
        else
          let rootVal := data.output cpnId rootKey
          let rootVal := if rootVal.truthy then rootVal else .dict []
          (setVariableParamValue rootVal rest v).map (data.setOutput cpnId rootKey ·)
      else .error ("Can't find variable: '" ++ ref.text ++ "'")

section WriteAt

variable {host : Host} {v obj : Value} {keys p : List String}

/-- The walk repeats the last key. -/
theorem assignAlong_eq (last : String) (v : Value) (keys : List String)
    (cur : List (String × Value)) :
    Value.dict (assignAlong last v keys cur) = writeAt v (keys ++ [last]) (.dict cur) := by
  induction keys generalizing cur with
  | nil => rfl
  | cons key keys ih =>
      rw [List.cons_append, writeAt, assignAlong, Value.entries]
      split
      · next inner h => rw [ih, h, Option.getD_some]
      · next h =>
          rw [ih, Value.dict.injEq]
          congr 1
          -- what is no dictionary has no entries, so it may as well be an empty one
          cases hk : cur.lookup key with
          | none => cases keys <;> rfl
          | some w =>
              cases w with
              | dict inner => exact absurd hk (h inner)
              | _ => cases keys <;> rfl

theorem lookup_put_self (key : String) (v : Value) (es : List (String × Value)) :
    (put key v es).lookup key = some v := by
  rw [← look_eq_lookup, look_put_self]

theorem lookup_put_ne {key key' : String} (h : key' ≠ key) (v : Value)
    (es : List (String × Value)) : (put key v es).lookup key' = es.lookup key' := by
  rw [← look_eq_lookup, look_put_ne h, look_eq_lookup]

/-- Reading along the path of a write leads to what is left to write. -/
theorem getVariableParamValue_writeAt_append (keys rest : List String) (obj : Value) :
    ∃ w, getVariableParamValue host (writeAt v (keys ++ rest) obj) keys = writeAt v rest w := by
  induction keys generalizing obj with
  | nil => exact ⟨obj, by rw [List.nil_append, getVariableParamValue]⟩
  | cons key keys ih =>
      obtain ⟨w, hw⟩ := ih ((obj.entries.lookup key).getD .none)
      refine ⟨w, ?_⟩
      rw [List.cons_append, writeAt, getVariableParamValue, lookup_put_self, Option.getD_some, hw]

theorem getVariableParamValue_none (keys : List String) :
    getVariableParamValue host .none keys = .none := by
  cases keys <;> rw [getVariableParamValue]

/-- Down the path there are only dictionaries, as far as there is anything. -/
@[grind =] def OnlyDicts : List String → Value → Prop
  | [], _ => True
  | key :: keys, .dict es => OnlyDicts keys ((es.lookup key).getD .none)
  | _ :: _, .none => True
  | _ :: _, _ => False

/-- A write keeps what is read under a path that parts from its own, unless it replaces something
other than a dictionary. -/
theorem getVariableParamValue_writeAt_of_parts (rest : List String)
    (hp : ¬ p <+: keys) (hkeys : ¬ keys <+: p) (hobj : OnlyDicts keys obj) :
    getVariableParamValue host (writeAt v (keys ++ rest) obj) p =
      getVariableParamValue host obj p := by
  induction keys generalizing p obj with
  | nil => exact absurd List.nil_prefix hkeys
  | cons key keys ih =>
      cases p with
      | nil => exact absurd List.nil_prefix hp
      | cons k p =>
          rw [List.cons_prefix_cons] at hp hkeys
          rw [List.cons_append, writeAt, getVariableParamValue]
          by_cases hk : k = key
          · subst hk
            have hp' : ¬ p <+: keys := fun h => hp ⟨rfl, h⟩
            have hkeys' : ¬ keys <+: p := fun h => hkeys ⟨rfl, h⟩
            rw [lookup_put_self, Option.getD_some]
            cases obj with
            | none =>
                rw [getVariableParamValue, ih hp' hkeys' (by cases keys <;> trivial)]
                exact getVariableParamValue_none p
            | dict es => rw [getVariableParamValue]; exact ih hp' hkeys' hobj
            | _ => exact hobj.elim
          · rw [lookup_put_ne hk]
            cases obj with
            | none => rw [getVariableParamValue]; exact getVariableParamValue_none p
            | dict es => rw [getVariableParamValue]; rfl
            | _ => exact hobj.elim

end WriteAt

/-! ## Reading back -/

section ReadBack

variable {host : Host} {known : CpnId → Bool} {data data' : Data} {cpnId : CpnId}
  {rootKey : String} {keys : List String} {v : Value}

/-- The assignment along a dotted path fails, because there is no such component or because the
root output is something, but no dictionary. -/
def Refuses (known : CpnId → Bool) (data : Data) (cpnId : CpnId) (rootKey : String) : Prop :=
  known cpnId = true →
    (data.output cpnId rootKey).truthy = true ∧ (data.output cpnId rootKey).isDict = false

/-- What an assignment that goes through does: it writes to the path with its last key repeated,
starting at the root output, or at an empty dictionary where that is false. -/
theorem setVariableValue_eq_ok (hpath : ".".intercalate keys ≠ "")
    (h : setVariableValue known data (.output cpnId rootKey keys) v = .ok data') :
    ∃ last es, known cpnId = true ∧ keys.getLast? = some last ∧
      ((data.output cpnId rootKey).truthy = true → data.output cpnId rootKey = .dict es) ∧
      ((data.output cpnId rootKey).truthy = false → es = []) ∧
      data' = data.setOutput cpnId rootKey (writeAt v (keys ++ [last]) (.dict es)) := by
  rw [setVariableValue] at h
  by_cases hknown : known cpnId = true
  · rw [if_pos hknown, if_neg hpath] at h
    cases hlast : keys.getLast? with
    | none =>
        rw [List.getLast?_eq_none_iff] at hlast
        exact absurd (hlast ▸ rfl) hpath
    | some last =>
        cases ht : (data.output cpnId rootKey).truthy with
        | true =>
            simp only [ht, ↓reduceIte, setVariableParamValue, hlast] at h
            split at h
            · next cur hcur =>
                refine ⟨last, cur, hknown, rfl, fun _ => hcur, nofun, ?_⟩
                rw [← assignAlong_eq]
                exact (Except.ok.inj h).symm
            · cases h
        | false =>
            simp only [ht, setVariableParamValue, hlast] at h
            refine ⟨last, [], hknown, rfl, nofun, fun _ => rfl, ?_⟩
            rw [← assignAlong_eq]
            exact (Except.ok.inj h).symm
  · rw [if_neg hknown] at h
    cases h

/-- It goes through unless it is refused. -/
theorem exists_setVariableValue (hpath : ".".intercalate keys ≠ "")
    (h : ¬ Refuses known data cpnId rootKey) :
    ∃ data', setVariableValue known data (.output cpnId rootKey keys) v = .ok data' := by
  rw [Refuses, Classical.not_imp, not_and_or, Bool.not_eq_true, Bool.not_eq_false] at h
  obtain ⟨hknown, h⟩ := h
  rw [setVariableValue, if_pos hknown, if_neg hpath]
  cases hlast : keys.getLast? with
  | none =>
      rw [List.getLast?_eq_none_iff] at hlast
      exact absurd (hlast ▸ rfl) hpath
  | some last =>
      cases ht : (data.output cpnId rootKey).truthy with
      | false => exact ⟨_, by simp only [ht, setVariableParamValue, hlast]; rfl⟩
      | true =>
          have hdict := h.resolve_left (by rw [ht]; exact Bool.true_eq_false_eq_False)
          cases hout : data.output cpnId rootKey with
          | dict es =>
              rw [hout] at ht
              exact ⟨_, by simp only [ht, ↓reduceIte, setVariableParamValue, hlast]; rfl⟩
          | _ => rw [hout] at hdict; cases hdict

/-- The value is found under the last key, one level below the path. -/
theorem getVariableValue_setVariableValue (hpath : ".".intercalate keys ≠ "")
    (h : setVariableValue known data (.output cpnId rootKey keys) v = .ok data') :
    ∃ last es, keys.getLast? = some last ∧
      getVariableValue host known data' (.output cpnId rootKey keys) =
        .ok (.dict (put last v es)) := by
  obtain ⟨last, es, hknown, hlast, -, -, rfl⟩ := setVariableValue_eq_ok hpath h
  obtain ⟨w, hw⟩ :=
    @getVariableParamValue_writeAt_append host v keys [last] (.dict es)
  refine ⟨last, w.entries, hlast, ?_⟩
  rw [getVariableValue, if_pos hknown, Data.setOutput_self, hw]
  rfl

/-- Paths that part from the assigned one read as before, where nothing but dictionaries lies on
the assigned one. -/
theorem getVariableValue_of_parts (hpath : ".".intercalate keys ≠ "") {p : List String}
    (hp : ¬ p <+: keys) (hkeys : ¬ keys <+: p)
    (hdicts : OnlyDicts keys (data.output cpnId rootKey))
    (h : setVariableValue known data (.output cpnId rootKey keys) v = .ok data') :
    getVariableValue host known data' (.output cpnId rootKey p) =
      getVariableValue host known data (.output cpnId rootKey p) := by
  obtain ⟨last, es, hknown, -, hdict, hempty, rfl⟩ := setVariableValue_eq_ok hpath h
  have hroot : OnlyDicts keys (.dict es) ∧ getVariableParamValue host (.dict es) p =
      getVariableParamValue host (data.output cpnId rootKey) p := by
    cases ht : (data.output cpnId rootKey).truthy with
    | true => exact hdict ht ▸ ⟨hdicts, rfl⟩
    | false =>
        obtain rfl := hempty ht
        cases keys with
        | nil => exact absurd List.nil_prefix hkeys
        | cons key keys =>
            cases p with
            | nil => exact absurd List.nil_prefix hp
            | cons k p =>
                refine ⟨by cases keys <;> trivial, ?_⟩
                rw [getVariableParamValue]
                cases hout : data.output cpnId rootKey with
                | none => exact (getVariableParamValue_none p).trans (by rw [getVariableParamValue])
                | dict es =>
                    rw [hout] at ht
                    obtain rfl : es = [] := by simpa [Value.truthy] using ht
                    rw [getVariableParamValue]
                | _ => rw [hout] at hdicts; exact hdicts.elim
  rw [getVariableValue, if_pos hknown, getVariableValue, if_pos hknown, Data.setOutput_self,
    getVariableParamValue_writeAt_of_parts [last] hp hkeys hroot.1, hroot.2]

/-- A value is read back when it is the same or compares equal. -/
def ReadsAs (w v : Value) : Prop := w = v ∨ w.pyEq v = true

/-- After an assignment that goes through, the path reads as the value, and paths that part from
it read as before. -/
def SetThenGet (host : Host) (known : CpnId → Bool) (data : Data) (cpnId : CpnId)
    (rootKey : String) (keys : List String) (v : Value) : Prop :=
  ∀ data', setVariableValue known data (.output cpnId rootKey keys) v = .ok data' →
    (∃ w, getVariableValue host known data' (.output cpnId rootKey keys) = .ok w ∧
      ReadsAs w v) ∧
    ∀ p : List String, ".".intercalate p ≠ "" → ¬ p <+: keys → ¬ keys <+: p →
      getVariableValue host known data' (.output cpnId rootKey p) =
        getVariableValue host known data (.output cpnId rootKey p)

/-- A dictionary that holds a value is nested deeper than the value. -/
theorem not_readsAs_dict (key : String) (v : Value) (es : List (String × Value)) :
    ¬ ReadsAs (.dict (put key v es)) v := by
  have hdepth : v.depth < (Value.dict (put key v es)).depth := by
    rw [Value.depth]
    exact Nat.lt_succ_of_le (Value.depth_le_depthDict (lookup_put_self key v es))
  rintro (heq | heq)
  · rw [heq] at hdepth
    exact lt_irrefl _ hdepth
  · exact absurd (Value.depth_le_of_pyEq heq) (not_le.mpr hdepth)

/-- A value never reads back under the path it was assigned to: the law holds only where the
assignment is refused. -/
theorem setThenGet_iff (host : Host) (known : CpnId → Bool) (data : Data) (cpnId : CpnId)
    (rootKey : String) {keys : List String} (hpath : ".".intercalate keys ≠ "") (v : Value) :
    SetThenGet host known data cpnId rootKey keys v ↔ Refuses known data cpnId rootKey := by
  constructor
  · intro hlaw
    by_contra hrefuses
    obtain ⟨data', hset⟩ := exists_setVariableValue (v := v) hpath hrefuses
    obtain ⟨w, hw, hv⟩ := (hlaw data' hset).1
    obtain ⟨last, es, -, hget⟩ := @getVariableValue_setVariableValue host _ _ _ _ _ _ _ hpath hset
    rw [hget, Except.ok.injEq] at hw
    exact not_readsAs_dict last v es (hw ▸ hv)
  · intro hrefuses data' hset
    obtain ⟨last, es, hknown, -, hdict, -, -⟩ := setVariableValue_eq_ok hpath hset
    have hroot := hrefuses hknown
    rw [hdict hroot.1] at hroot
    exact absurd hroot.2 Bool.true_eq_false_eq_False

/-- A host that parses nothing, for runs in which nothing is parsed. -/
def plainHost : Host where
  jsonLoads _ := none
  int _ := none
  getattr _ _ := .none
  typeText _ := ""

theorem setThenGet_text : SetThenGet plainHost (fun _ => true)
      ((Data.mk (fun _ _ => none) fun _ => none).setOutput "c" "result" (.str "done"))
      "c" "result" ["a"] (.num 1) ↔
    Refuses (fun _ => true)
      ((Data.mk (fun _ _ => none) fun _ => none).setOutput "c" "result" (.str "done"))
      "c" "result" :=
  setThenGet_iff _ _ _ _ _ (by decide) _

/-- Assigning 1 to `c@result.a` makes it read as the dictionary with 1 under `a`. -/
theorem not_setThenGet : ¬ SetThenGet plainHost (fun _ => true)
    ⟨fun _ _ => none, fun _ => none⟩ "c" "result" ["a"] (.num 1) := by
  intro h
  obtain ⟨w, hw, hv⟩ := (h _ rfl).1
  obtain rfl : Value.dict [("a", .num 1)] = w := Except.ok.inj hw
  rcases hv with hv | hv
  · cases hv
  · exact Bool.false_ne_true hv

end ReadBack

end RagFlow.Agent
