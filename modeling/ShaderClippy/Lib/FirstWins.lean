/-
  ShaderClippy.Lib.FirstWins

  **MAPS THAT KEEP THE FIRST INSERTION.**

  `tryEmplace` leaves a map alone that has the key. After any insertions the
  map holds what a list of all of them holds first (`lookup_emplaceAll`), and if
  each of some things inserts one value under many keys, it is the value of the
  first thing with the key (`lookup_flatMap_keys`).
-/
import Mathlib.Data.List.Basic

namespace FirstWins

variable {ι κ β : Type} [BEq κ] [LawfulBEq κ]

/-- Insert, unless the key is there. -/
def tryEmplace (map : List (κ × β)) (entry : κ × β) : List (κ × β) :=
  if (map.lookup entry.1).isSome then map else map ++ [entry]

/-- Many insertions, one after the other. -/
def emplaceAll (entries : List (κ × β)) : List (κ × β) := entries.foldl tryEmplace []

theorem lookup_tryEmplace (map : List (κ × β)) (entry : κ × β) (k : κ) :
    (tryEmplace map entry).lookup k = (map ++ [entry]).lookup k := by
  unfold tryEmplace
  split
  next hkey =>
    rw [List.lookup_append]
    by_cases hk : k = entry.1
    · -- the key is the one that is there
      obtain ⟨v, hv⟩ := Option.isSome_iff_exists.mp hkey
      rw [hk, hv]
      rfl
    · have hnone : [entry].lookup k = none := by
        rw [List.lookup_eq_none_iff]
        intro p hp
        rw [List.mem_singleton.mp hp, bne_iff_ne]
        exact hk
      rw [hnone, Option.or_none]
  next => rfl

/-- **The first insertion wins.** -/
theorem lookup_emplaceAll (entries : List (κ × β)) (k : κ) : (emplaceAll entries).lookup k = entries.lookup k := by
  have hfold : ∀ (entries map : List (κ × β)), (entries.foldl tryEmplace map).lookup k = (map ++ entries).lookup k := by
    intro entries
    induction entries with
    | nil => intro map; rw [List.foldl_nil, List.append_nil]
    | cons entry entries ih =>
        intro map
        rw [List.foldl_cons, ih, List.lookup_append, lookup_tryEmplace, ← List.lookup_append, List.append_assoc,
          List.singleton_append]
  exact hfold entries []

theorem lookup_keys (keys : List κ) (v : β) (k : κ) :
    (keys.map fun key => (key, v)).lookup k = if k ∈ keys then some v else none := by
  induction keys with
  | nil => rfl
  | cons key keys ih =>
      rw [List.map_cons, List.lookup_cons, ih]
      by_cases hk : k = key
      · subst hk
        rw [if_pos List.mem_cons_self, beq_self_eq_true]
      · rw [beq_false_of_ne hk]
        simp [hk]

/-- **The first thing with the key.** -/
theorem lookup_flatMap_keys (keys : ι → List κ) (value : ι → β) (things : List ι) (k : κ) :
    (things.flatMap fun i => (keys i).map fun key => (key, value i)).lookup k
      = (things.find? fun i => decide (k ∈ keys i)).map value := by
  induction things with
  | nil => rfl
  | cons i things ih =>
      rw [List.flatMap_cons, List.lookup_append, lookup_keys, ih]
      by_cases hk : k ∈ keys i
      · rw [if_pos hk, List.find?_cons, decide_eq_true hk]
        rfl
      · rw [if_neg hk, List.find?_cons, decide_eq_false hk]
        rfl

end FirstWins
