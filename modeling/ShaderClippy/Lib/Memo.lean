/-
  ShaderClippy.Lib.Memo

  **A CACHE IN FRONT OF A FUNCTION THAT MAY FAIL.**

  Calls are looked up under a key; a failure is returned and not kept, a value
  is kept and never replaced. After any calls, what is kept under a key is the
  value of the FIRST call with that key that had one (`find_after`).

  The cache goes unnoticed if calls with the same key are the same call
  (`transparent_of_separated`), and only then if it has to for every function
  (`separated_of_transparent`).
-/
import Mathlib.Data.List.Induction
import Mathlib.Tactic.ByContra

namespace ShaderClippy.Memo

variable {Input Key Value Failure : Type} [DecidableEq Key]

/-! ## §1. Stores. -/

abbrev Store (Key Value : Type) := List (Key × Value)

def Store.find (store : Store Key Value) (k : Key) : Option Value :=
  (List.find? (fun kv => decide (kv.1 = k)) store).map Prod.snd

/-- Keep a value unless there is one already; the value that is kept. -/
def Store.tryEmplace (store : Store Key Value) (k : Key) (v : Value) : Value × Store Key Value :=
  match store.find k with
  | some old => (old, store)
  | none => (v, store ++ [(k, v)])

theorem Store.find_append_singleton (store : Store Key Value) (k k' : Key) (v : Value) :
    Store.find (store ++ [(k, v)]) k' = (store.find k').or (if k = k' then some v else none) := by
  rw [Store.find, Store.find, List.find?_append]
  cases List.find? (fun kv => decide (kv.1 = k')) store with
  | some kv => rfl
  | none =>
      by_cases hk : k = k'
      · simp [hk]
      · simp [hk]

/-! ## §2. Calls. -/

variable (key : Input → Key) (f : Input → Except Failure Value)

/-- One call. -/
def call (store : Store Key Value) (i : Input) : Except Failure Value × Store Key Value :=
  match store.find (key i) with
  | some v => (.ok v, store)
  | none =>
      match f i with
      | .error e => (.error e, store)
      | .ok v =>
          let (kept, store) := store.tryEmplace (key i) v
          (.ok kept, store)

/-- The store after some calls. -/
def after (calls : List Input) : Store Key Value :=
  calls.foldl (fun store i => (call key f store i).2) []

/-- Every one of the calls returns what the function does. -/
def Transparent (calls : List Input) : Prop :=
  ∀ earlier i later, calls = earlier ++ i :: later → (call key f (after key f earlier) i).1 = f i

/-! ## §3. What is kept. -/

/-- The value of a call, if it has the key and a value. -/
def valueAt (k : Key) (i : Input) : Option Value :=
  if key i = k then (f i).toOption else none

/-- **Step lemma**: a call adds its value where nothing is kept. -/
theorem find_call (store : Store Key Value) (i : Input) (k : Key) :
    (call key f store i).2.find k = (store.find k).or (valueAt key f k i) := by
  rw [call, valueAt]
  cases hkept : store.find (key i) with
  | some v =>
      by_cases hk : key i = k
      · subst hk
        simp [hkept]
      · simp [hk]
  | none =>
      cases hf : f i with
      | error e => simp [Except.toOption]
      | ok v =>
          simp only [Store.tryEmplace, hkept, Store.find_append_singleton, Except.toOption]

theorem after_append_singleton (earlier : List Input) (i : Input) :
    after key f (earlier ++ [i]) = (call key f (after key f earlier) i).2 := by
  rw [after, List.foldl_append]
  rfl

/-- **Run lemma**: the first value with the key is kept. -/
theorem find_after (calls : List Input) (k : Key) :
    (after key f calls).find k = calls.findSome? (valueAt key f k) := by
  induction calls using List.reverseRecOn with
  | nil => rfl
  | append_singleton earlier i ih =>
      have hone : [i].findSome? (valueAt key f k) = valueAt key f k i := by
        rw [List.findSome?_cons]
        cases valueAt key f k i <;> rfl
      rw [after_append_singleton, find_call, ih, List.findSome?_append, hone]

/-- A call returns the first value with its key. -/
theorem call_after (earlier : List Input) (i : Input) :
    (call key f (after key f earlier) i).1 =
      match earlier.findSome? (valueAt key f (key i)) with
      | some v => .ok v
      | none => f i := by
  rw [call, find_after]
  cases hfind : earlier.findSome? (valueAt key f (key i)) with
  | some v => rfl
  | none =>
      cases hf : f i with
      | error e => rfl
      | ok v =>
          have hnone : (after key f earlier).find (key i) = none := by rw [find_after, hfind]
          simp only [Store.tryEmplace, hnone]

/-! ## §4. Transparency. -/

variable {key} in
theorem transparent_of_separated {calls : List Input}
    (h : ∀ i ∈ calls, ∀ j ∈ calls, key i = key j → i = j) : Transparent key f calls := by
  intro earlier i later hcalls
  rw [call_after]
  cases hfind : earlier.findSome? (valueAt key f (key i)) with
  | none => rfl
  | some v =>
      have ⟨j, hj, hv⟩ := List.exists_of_findSome?_eq_some hfind
      rw [valueAt] at hv
      split at hv
      case isTrue hkey =>
        have hij : j = i := by
          apply h j _ i _ hkey
          · rw [hcalls]
            exact List.mem_append_left _ hj
          · rw [hcalls]
            exact List.mem_append_right _ (List.mem_cons_self ..)
        subst hij
        cases hf : f j with
        | error e =>
            rw [hf] at hv
            cases hv
        | ok w =>
            rw [hf] at hv
            cases hv
            rfl
      case isFalse => cases hv

variable {key} in
/-- Some function tells two calls with one key apart. -/
theorem separated_of_transparent {calls : List Input}
    (h : ∀ f : Input → Except Failure Bool, Transparent key f calls) :
    ∀ i ∈ calls, ∀ j ∈ calls, key i = key j → i = j := by
  classical
  -- it is enough to look at the first call with the key
  have hfirst : ∀ i ∈ calls, ∃ first, calls.find? (fun j => decide (key j = key i)) = some first
      ∧ i = first := by
    intro i hi
    have hsome : (calls.find? fun j => decide (key j = key i)).isSome := by
      rw [List.find?_isSome]
      exact ⟨i, hi, decide_eq_true rfl⟩
    have ⟨first, hfind⟩ := Option.isSome_iff_exists.mp hsome
    refine ⟨first, hfind, ?_⟩
    by_contra hne
    have ⟨hkey, before, rest, hcalls, hbefore⟩ := List.find?_eq_some_iff_append.mp hfind
    have hrest : i ∈ rest := by
      rw [hcalls, List.mem_append, List.mem_cons] at hi
      rcases hi with hi | hi | hi
      · simpa using hbefore i hi
      · exact absurd hi hne
      · exact hi
    have ⟨between, later, hsplit⟩ := List.append_of_mem hrest
    let isFirst : Input → Except Failure Bool := fun x => .ok (decide (x = first))
    have ht := h isFirst (before ++ first :: between) i later
      (by rw [hcalls, hsplit, List.append_assoc, List.cons_append])
    have hnone : before.findSome? (valueAt key isFirst (key i)) = none := by
      rw [List.findSome?_eq_none_iff]
      intro x hx
      have hx := hbefore x hx
      rw [valueAt, if_neg (by simpa using hx)]
    have hval : valueAt key isFirst (key i) first = some true := by
      rw [valueAt, if_pos (by simpa using hkey)]
      simp [isFirst, Except.toOption]
    rw [call_after, List.findSome?_append, hnone, List.findSome?_cons, hval] at ht
    simp [isFirst, hne] at ht
  intro i hi j hj hkey
  have ⟨a, ha, hia⟩ := hfirst i hi
  have ⟨b, hb, hjb⟩ := hfirst j hj
  rw [hkey, hb] at ha
  rw [hia, hjb, Option.some.inj ha]

end ShaderClippy.Memo
