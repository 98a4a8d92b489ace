/-
  ShaderClippy.Lib.ParentTable

  **RANKED PARENT TABLES.**

  A table `T : V → Option V` sends a vertex to its parent (`none`: not yet
  known). The root is its own parent; every other entry climbs to a vertex
  of larger `rank` that has an entry itself (`Ranked`). `Anc T a b`: `a` is
  on the parent chain of `b`.

  The two operations an iterative dominator computation performs:

    • the nearest common ancestor (`IsNca`) of several vertices;
    • replacing one entry (`Function.update`). A SHORTCUT — the new parent
      is an ancestor of the old one — only ever removes ancestors
      (`Anc.of_update`), and a chain is disturbed only through the vertex
      whose entry changed (`Anc.update_or`).
-/
import Mathlib.Logic.Relation
import Mathlib.Logic.Function.Basic

namespace ParentTable

variable {V : Type} {T : V → Option V} {rank : V → Nat} {r : V}

/-! ## §1. Ancestors. -/

/-- `a` lies on the parent chain of `b`. -/
def Anc (T : V → Option V) (a b : V) : Prop :=
  Relation.ReflTransGen (fun x y => T x = some y) b a

theorem Anc.refl (T : V → Option V) (b : V) : Anc T b b := Relation.ReflTransGen.refl

theorem Anc.of_parent {a b p : V} (hp : T b = some p) (h : Anc T a p) : Anc T a b :=
  Relation.ReflTransGen.head hp h

theorem Anc.trans {a b c : V} (h₁ : Anc T a b) (h₂ : Anc T b c) : Anc T a c :=
  Relation.ReflTransGen.trans h₂ h₁

/-- An ancestor is the vertex itself or an ancestor of its parent. -/
theorem Anc.cases {a b : V} (h : Anc T a b) : a = b ∨ ∃ p, T b = some p ∧ Anc T a p := by
  rcases Relation.ReflTransGen.cases_head h with rfl | ⟨p, hp, hrest⟩
  · exact Or.inl rfl
  · exact Or.inr ⟨p, hp, hrest⟩

/-- The ancestors of one vertex form a chain. -/
theorem Anc.total {a b c : V} (ha : Anc T a b) (hc : Anc T c b) : Anc T a c ∨ Anc T c a := by
  have hunique : Relator.RightUnique (fun x y => T x = some y) := by
    intro x y z hy hz
    exact Option.some.inj (hy.symm.trans hz)
  rcases Relation.ReflTransGen.total_of_right_unique hunique ha hc with h | h
  · exact Or.inr h
  · exact Or.inl h

/-! ## §2. Ranked tables. -/

/-- The root is its own parent, entries climb, and ranks tell the vertices
with an entry apart. -/
structure Ranked (T : V → Option V) (rank : V → Nat) (r : V) : Prop where
  root : T r = some r
  climb : ∀ b p, T b = some p → b ≠ r → rank b < rank p ∧ T p ≠ none
  top : ∀ b, T b ≠ none → rank b ≤ rank r
  inj : ∀ b c, T b ≠ none → T c ≠ none → rank b = rank c → b = c

theorem Ranked.parent_ne_none (h : Ranked T rank r) {b p : V} (hp : T b = some p) :
    T p ≠ none := by
  by_cases hb : b = r
  · subst hb
    rw [h.root] at hp
    rw [← Option.some.inj hp, h.root]
    exact Option.some_ne_none _
  · exact (h.climb b p hp hb).2

theorem Ranked.rank_le_parent (h : Ranked T rank r) {b p : V} (hp : T b = some p) :
    rank b ≤ rank p := by
  by_cases hb : b = r
  · subst hb
    rw [h.root] at hp
    exact Nat.le_of_eq (congrArg rank (Option.some.inj hp))
  · exact Nat.le_of_lt (h.climb b p hp hb).1

theorem Anc.ne_none (h : Ranked T rank r) {a b : V} (hb : T b ≠ none) (hab : Anc T a b) :
    T a ≠ none := by
  induction hab with
  | refl => exact hb
  | tail _ hp _ => exact h.parent_ne_none hp

theorem Anc.rank_le (h : Ranked T rank r) {a b : V} (hab : Anc T a b) : rank b ≤ rank a := by
  induction hab with
  | refl => exact Nat.le_refl _
  | tail _ hp ih => exact Nat.le_trans ih (h.rank_le_parent hp)

/-- The only ancestor of the root is the root. -/
theorem Anc.eq_root (h : Ranked T rank r) {a : V} (ha : Anc T a r) : a = r := by
  induction ha with
  | refl => rfl
  | tail _ hp ih =>
      subst ih
      rw [h.root] at hp
      exact (Option.some.inj hp).symm

/-- A proper ancestor has a larger rank. -/
theorem Anc.rank_lt (h : Ranked T rank r) {a b : V} (hab : Anc T a b) (hne : a ≠ b) :
    rank b < rank a := by
  rcases hab.cases with rfl | ⟨p, hp, hap⟩
  · exact absurd rfl hne
  · have hb : b ≠ r := by
      rintro rfl
      exact hne (hab.eq_root h)
    exact Nat.lt_of_lt_of_le (h.climb b p hp hb).1 (hap.rank_le h)

/-- Among the ancestors of one vertex, the larger rank is the ancestor. -/
theorem Anc.of_rank_le (h : Ranked T rank r) {a b c : V} (ha : Anc T a b) (hc : Anc T c b)
    (hrank : rank a ≤ rank c) : Anc T c a := by
  rcases ha.total hc with hac | hca
  · by_cases hne : a = c
    · rw [hne]
      exact Anc.refl T c
    · exact absurd (hac.rank_lt h hne) (by omega)
  · exact hca

/-! ## §3. Nearest common ancestors. -/

/-- `c` is the nearest common ancestor of the vertices in `Q`. -/
def IsNca (T : V → Option V) (c : V) (Q : V → Prop) : Prop :=
  ∀ d, Anc T d c ↔ ∀ q, Q q → Anc T d q

theorem IsNca.anc {c : V} {Q : V → Prop} (h : IsNca T c Q) {q : V} (hq : Q q) : Anc T c q :=
  (h c).mp (Anc.refl T c) q hq

theorem IsNca.anc_of_common {c d : V} {Q : V → Prop} (h : IsNca T c Q)
    (hd : ∀ q, Q q → Anc T d q) : Anc T d c :=
  (h d).mpr hd

/-! ## §4. Replacing one entry. -/

section Update

variable [DecidableEq V] {b new : V}

/-- A chain that does not run through `b` survives a change of `b`'s entry;
one that does still reaches `b`. -/
theorem Anc.update_or {c x : V} (b new : V) (h : Anc T c x) :
    Anc (Function.update T b (some new)) c x
      ∨ (Anc (Function.update T b (some new)) b x ∧ Anc T c b) := by
  induction h using Relation.ReflTransGen.head_induction_on with
  | refl => exact Or.inl (Anc.refl _ _)
  | @head x y hp hrest ih =>
      by_cases hx : x = b
      · subst hx
        exact Or.inr ⟨Anc.refl _ _, Relation.ReflTransGen.head hp hrest⟩
      · have hp' : Function.update T b (some new) x = some y := by
          rw [Function.update_of_ne hx]
          exact hp
        rcases ih with h1 | ⟨h1, h2⟩
        · exact Or.inl (Anc.of_parent hp' h1)
        · exact Or.inr ⟨Anc.of_parent hp' h1, h2⟩

/-- Ancestors of a vertex that `b` is not an ancestor of are undisturbed. -/
theorem Anc.update {c x : V} (h : Anc T c x) (hb : ¬ Anc T b x) :
    Anc (Function.update T b (some new)) c x := by
  induction h using Relation.ReflTransGen.head_induction_on with
  | refl => exact Anc.refl _ _
  | @head x y hp _ ih =>
      have hx : x ≠ b := by
        rintro rfl
        exact hb (Anc.refl T x)
      refine Anc.of_parent (p := y) ?_ (ih fun hy => hb (Anc.of_parent hp hy))
      rw [Function.update_of_ne hx]
      exact hp

/-- Conversely, nothing is gained at such a vertex. -/
theorem Anc.of_update_of_not {c x : V} (h : Anc (Function.update T b (some new)) c x)
    (hb : ¬ Anc T b x) : Anc T c x := by
  induction h using Relation.ReflTransGen.head_induction_on with
  | refl => exact Anc.refl _ _
  | @head x y hp _ ih =>
      have hx : x ≠ b := by
        rintro rfl
        exact hb (Anc.refl T x)
      rw [Function.update_of_ne hx] at hp
      exact Anc.of_parent hp (ih fun hy => hb (Anc.of_parent hp hy))

/-- **A shortcut only removes ancestors.** -/
theorem Anc.of_update {old c x : V} (hold : T b = some old) (hcut : Anc T new old)
    (h : Anc (Function.update T b (some new)) c x) : Anc T c x := by
  induction h using Relation.ReflTransGen.head_induction_on with
  | refl => exact Anc.refl _ _
  | @head x y hp _ ih =>
      by_cases hx : x = b
      · subst hx
        rw [Function.update_self] at hp
        rw [← Option.some.inj hp] at ih
        exact Anc.of_parent hold (ih.trans hcut)
      · rw [Function.update_of_ne hx] at hp
        exact Anc.of_parent hp ih

/-- A climbing new entry keeps the table ranked. -/
theorem Ranked.update (h : Ranked T rank r) (hb : b ≠ r) (hnew : T new ≠ none)
    (hlt : rank b < rank new) (hinj : ∀ c, T c ≠ none → rank b = rank c → b = c) :
    Ranked (Function.update T b (some new)) rank r := by
  have hsome : ∀ x, T x ≠ none → Function.update T b (some new) x ≠ none := by
    intro x hx
    by_cases hxb : x = b
    · rw [hxb, Function.update_self]
      exact Option.some_ne_none _
    · rw [Function.update_of_ne hxb]
      exact hx
  have hof : ∀ x, Function.update T b (some new) x ≠ none → x = b ∨ T x ≠ none := by
    intro x hx
    by_cases hxb : x = b
    · exact Or.inl hxb
    · rw [Function.update_of_ne hxb] at hx
      exact Or.inr hx
  refine ⟨?_, ?_, ?_, ?_⟩
  · rw [Function.update_of_ne (Ne.symm hb)]
    exact h.root
  · intro x p hp hx
    by_cases hxb : x = b
    · subst hxb
      rw [Function.update_self] at hp
      rw [← Option.some.inj hp]
      exact ⟨hlt, hsome new hnew⟩
    · rw [Function.update_of_ne hxb] at hp
      obtain ⟨h1, h2⟩ := h.climb x p hp hx
      exact ⟨h1, hsome p h2⟩
  · intro x hx
    rcases hof x hx with rfl | hx
    · exact Nat.le_trans (Nat.le_of_lt hlt) (h.top new hnew)
    · exact h.top x hx
  · intro x y hx hy hxy
    rcases hof x hx with rfl | hx'
    · rcases hof y hy with rfl | hy'
      · rfl
      · exact hinj y hy' hxy
    · rcases hof y hy with rfl | hy'
      · exact (hinj x hx' hxy.symm).symm
      · exact h.inj x y hx' hy' hxy

end Update

end ParentTable
