/-
  ShaderClippy.Lib.Checked

  **READINGS THAT MAY FAIL, AND THE LAST ONE THAT WINS.**

  A reading is an `Except`. It `Succeeds` if it has a result; readings one after
  another succeed if each of them does (`succeeds_bind`), and so do the readings of a
  list (`succeeds_mapM`), whose results stand for its elements one by one
  (`forall₂_of_mapM`). Where later settings override earlier ones, the last one that
  is there wins (`foldl_override`).
-/
import Mathlib.Data.List.Basic
import Mathlib.Data.List.Forall2

namespace Checked

variable {ε α β : Type}

/-! ## §1. Readings. -/

/-- The reading has a result. -/
def Succeeds (x : Except ε α) : Prop := ∃ a, x = .ok a

theorem Succeeds.ok (a : α) : Succeeds (.ok a : Except ε α) := ⟨a, rfl⟩

theorem not_succeeds_error (e : ε) : ¬ Succeeds (.error e : Except ε α) := nofun

theorem bind_eq_ok {x : Except ε α} {f : α → Except ε β} {b : β} :
    (x >>= f) = .ok b ↔ ∃ a, x = .ok a ∧ f a = .ok b := by
  cases x with
  | ok a => exact ⟨fun h => ⟨a, rfl, h⟩, fun ⟨_, ha, h⟩ => Except.ok.inj ha ▸ h⟩
  | error e => exact ⟨nofun, fun ⟨_, ha, _⟩ => nomatch ha⟩

/-- What follows a reading may not depend on what was read. -/
theorem succeeds_bind {x : Except ε α} {f : α → Except ε β} {P : Prop} (hf : ∀ a, x = .ok a → (Succeeds (f a) ↔ P)) :
    Succeeds (x >>= f) ↔ Succeeds x ∧ P := by
  constructor
  · rintro ⟨b, hb⟩
    obtain ⟨a, ha, h⟩ := bind_eq_ok.mp hb
    exact ⟨⟨a, ha⟩, (hf a ha).mp ⟨b, h⟩⟩
  · rintro ⟨⟨a, ha⟩, hP⟩
    obtain ⟨b, hb⟩ := (hf a ha).mpr hP
    exact ⟨b, bind_eq_ok.mpr ⟨a, ha, hb⟩⟩

/-- A result may be changed without harm. -/
theorem succeeds_map {x : Except ε α} {f : α → β} : Succeeds (f <$> x) ↔ Succeeds x := by
  cases x with
  | ok a => exact ⟨fun _ => .ok a, fun _ => .ok (f a)⟩
  | error e => exact ⟨nofun, nofun⟩

/-- The results of a list stand for its elements. -/
theorem forall₂_of_mapM {f : α → Except ε β} : ∀ {l : List α} {l' : List β}, l.mapM f = .ok l' →
    List.Forall₂ (fun a b => f a = .ok b) l l'
  | [], l', h => by
      rw [List.mapM_nil] at h
      cases h
      exact .nil
  | a :: l, l', h => by
      rw [List.mapM_cons] at h
      obtain ⟨b, hb, h⟩ := bind_eq_ok.mp h
      obtain ⟨bs, hbs, h⟩ := bind_eq_ok.mp h
      cases h
      exact .cons hb (forall₂_of_mapM hbs)

theorem succeeds_mapM {f : α → Except ε β} {l : List α} : Succeeds (l.mapM f) ↔ ∀ a ∈ l, Succeeds (f a) := by
  induction l with
  | nil => exact ⟨fun _ => nofun, fun _ => .ok []⟩
  | cons a l ih =>
      have hrest : ∀ b, f a = .ok b → (Succeeds (l.mapM f >>= fun bs => pure (b :: bs)) ↔ ∀ x ∈ l, Succeeds (f x)) := by
        intro b _
        rw [← ih]
        exact succeeds_map
      rw [List.mapM_cons, succeeds_bind hrest, List.forall_mem_cons]

/-! ## §2. Settings that override each other. -/

/-- **The last setting that is there wins.** -/
theorem foldl_override (setting : α → Option β) (l : List α) (first : Option β) :
    l.foldl (fun acc a => (setting a).or acc) first = (l.reverse.findSome? setting).or first := by
  induction l generalizing first with
  | nil => rfl
  | cons a l ih =>
      have hone : [a].findSome? setting = setting a := by
        rw [List.findSome?_cons]
        cases setting a <;> rfl
      rw [List.foldl_cons, ih, List.reverse_cons, List.findSome?_append, Option.or_assoc, hone]

theorem foldl_override_eq_some {setting : α → Option β} {l : List α} {b : β} :
    l.foldl (fun acc a => (setting a).or acc) none = some b ↔
      ∃ earlier a later, l = earlier ++ a :: later ∧ setting a = some b ∧ ∀ x ∈ later, setting x = none := by
  rw [foldl_override, Option.or_none, List.findSome?_eq_some_iff]
  constructor
  · rintro ⟨later, a, earlier, hl, ha, hlater⟩
    refine ⟨earlier.reverse, a, later.reverse, ?_, ha, fun x hx => hlater x (List.mem_reverse.mp hx)⟩
    rw [← List.reverse_reverse l, hl, List.reverse_append, List.reverse_cons, List.append_assoc]
    rfl
  · rintro ⟨earlier, a, later, rfl, ha, hlater⟩
    refine ⟨later.reverse, a, earlier.reverse, ?_, ha, fun x hx => hlater x (List.mem_reverse.mp hx)⟩
    rw [List.reverse_append, List.reverse_cons, List.append_assoc]
    rfl

theorem foldl_override_eq_none {setting : α → Option β} {l : List α} :
    l.foldl (fun acc a => (setting a).or acc) none = none ↔ ∀ a ∈ l, setting a = none := by
  rw [foldl_override, Option.or_none, List.findSome?_eq_none_iff]
  simp only [List.mem_reverse]

end Checked
