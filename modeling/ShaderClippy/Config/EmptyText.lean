/-
  ShaderClippy.Config.EmptyText

  **WHICH GLOBS MATCH THE EMPTY TEXT.**

  A star may stand for nothing, a separator and any other character may not,
  but two stars take the separator behind them along. So a glob matches the
  empty text exactly when it is made of stars, with an even number of them,
  and not zero, before each separator (`pathGlobMatch_empty`): `*`, `**`,
  `**/*`, and the empty glob.
-/
import ShaderClippy.Config.Glob

namespace ShaderClippy.Config

open Lines (join)

/-- The components of a glob that matches the empty text. -/
def starsOnly : List Text → Bool
  | [] => true
  | [g] => g.all (· == '*')
  | g :: gs => g.all (· == '*') && !g.isEmpty && g.length % 2 == 0 && starsOnly gs

/-- Stars, then a character that is none. -/
theorem globMatch_stars_then {c : Char} (hc : c ≠ '*') (r : Text) : ∀ n : Nat,
    globMatch (List.replicate n '*' ++ c :: r) [] = true
      ↔ c = '/' ∧ 0 < n ∧ n % 2 = 0 ∧ globMatch r [] = true
  | 0 => by
      refine ⟨fun h => ?_, fun h => absurd h.2.1 (by decide)⟩
      rw [List.replicate_zero, List.nil_append, globMatch] at h
      · cases h
      · simp [hc]
      · simp [hc]
  | 1 => by
      refine ⟨fun h => ?_, fun h => absurd h.2.2.1 (by decide)⟩
      rw [List.replicate_succ, List.replicate_zero, List.cons_append, List.nil_append,
        globMatch_star (by simpa using hc)] at h
      obtain ⟨u, v, huv, -, h⟩ := h
      obtain ⟨rfl, rfl⟩ := List.append_eq_nil_iff.mp huv.symm
      exact absurd ((globMatch_stars_then hc r 0).mp h).2.1 (by decide)
  | n + 2 => by
      have hstep : globMatch (List.replicate (n + 2) '*' ++ c :: r) [] = true
          ↔ globMatch (eatSlash (List.replicate n '*' ++ c :: r)) [] = true := by
        rw [List.replicate_succ, List.replicate_succ, List.cons_append, List.cons_append,
          globMatch_doubleStar]
        constructor
        · rintro ⟨u, v, huv, h⟩
          obtain ⟨rfl, rfl⟩ := List.append_eq_nil_iff.mp huv.symm
          exact h
        · exact fun h => ⟨[], [], rfl, h⟩
      rw [hstep]
      cases n with
      | zero =>
          rw [List.replicate_zero, List.nil_append, eatSlash]
          by_cases hsep : c = '/'
          · rw [if_pos hsep]
            simp [hsep]
          · rw [if_neg hsep]
            refine ⟨fun h => ?_, fun h => absurd h.1 hsep⟩
            exact absurd ((globMatch_stars_then hc r 0).mp h).2.1 (by decide)
      | succ n =>
          -- the separator is not next, so nothing is taken with the two stars
          have hkeep : eatSlash (List.replicate (n + 1) '*' ++ c :: r)
              = List.replicate (n + 1) '*' ++ c :: r := by
            rw [List.replicate_succ, List.cons_append, eatSlash, if_neg (by decide)]
          rw [hkeep, globMatch_stars_then hc r (n + 1)]
          have h2 : (n + 1 + 2) % 2 = (n + 1) % 2 := by omega
          rw [h2]
          simp

theorem globMatch_stars : ∀ n : Nat, globMatch (List.replicate n '*') [] = true
  | 0 => globMatch_nil.mpr rfl
  | 1 => (globMatch_star (by simp)).mpr ⟨[], [], rfl, List.not_mem_nil, globMatch_nil.mpr rfl⟩
  | n + 2 => by
      rw [List.replicate_succ, List.replicate_succ, globMatch_doubleStar]
      refine ⟨[], [], rfl, ?_⟩
      have hkeep : eatSlash (List.replicate n '*') = List.replicate n '*' := by
        cases n with
        | zero => rfl
        | succ n => rw [List.replicate_succ, eatSlash, if_neg (by decide)]
      rw [hkeep]
      exact globMatch_stars n

/-- A component is stars, or stars and then something else. -/
theorem stars_or_other (g : Text) : g = List.replicate g.length '*'
    ∨ ∃ n c r, g = List.replicate n '*' ++ c :: r ∧ c ≠ '*' := by
  induction g with
  | nil => exact Or.inl rfl
  | cons d g ih =>
      by_cases hd : d = '*'
      · rcases ih with ih | ⟨n, c, r, hg, hc⟩
        · left
          rw [List.length_cons, List.replicate_succ, hd]
          exact congrArg ('*' :: ·) ih
        · exact Or.inr ⟨n + 1, c, r, by rw [hd, hg]; rfl, hc⟩
      · exact Or.inr ⟨0, d, g, rfl, hd⟩

theorem all_stars_iff {g : Text} : g.all (· == '*') = true ↔ g = List.replicate g.length '*' := by
  rw [List.all_eq_true, List.eq_replicate_iff]
  simp

theorem not_all_stars {n : Nat} {c : Char} {r : Text} (hc : c ≠ '*') :
    (List.replicate n '*' ++ c :: r).all (· == '*') = false := by
  simp [hc]

/-- **Which globs match the empty text.** -/
theorem globMatch_join_iff {gs : List Text} (hne : gs ≠ []) (hsep : ∀ g ∈ gs, '/' ∉ g) :
    globMatch (join '/' gs) [] = true ↔ starsOnly gs = true := by
  induction gs with
  | nil => exact absurd rfl hne
  | cons g gs ih =>
      have hg : '/' ∉ g := hsep g (List.mem_cons_self ..)
      cases gs with
      | nil =>
          show globMatch g [] = true ↔ g.all (· == '*') = true
          rcases stars_or_other g with hstars | ⟨n, c, r, rfl, hc⟩
          · rw [all_stars_iff, hstars]
            exact iff_of_true (globMatch_stars _) (by rw [List.length_replicate])
          · rw [globMatch_stars_then hc, not_all_stars hc]
            refine iff_of_false (fun h => hg ?_) Bool.false_ne_true
            rw [h.1]
            exact List.mem_append_right _ (List.mem_cons_self ..)
      | cons g' gs =>
          have hrest := ih (List.cons_ne_nil _ _) fun h hh => hsep h (List.mem_cons_of_mem _ hh)
          show globMatch (g ++ '/' :: join '/' (g' :: gs)) [] = true
            ↔ (g.all (· == '*') && !g.isEmpty && g.length % 2 == 0 && starsOnly (g' :: gs)) = true
          rcases stars_or_other g with hstars | ⟨n, c, r, rfl, hc⟩
          · have hall : g.all (· == '*') = true := all_stars_iff.mpr hstars
            rw [hall]
            rw [hstars, globMatch_stars_then (by decide), hrest, List.length_replicate]
            cases hlen : g.length <;> simp
          · rw [not_all_stars hc, List.append_assoc, List.cons_append, globMatch_stars_then hc]
            refine iff_of_false (fun h => hg ?_) (by simp)
            rw [h.1]
            exact List.mem_append_right _ (List.mem_cons_self ..)

theorem pathGlobMatch_empty (glob : Text) :
    pathGlobMatch glob [] = starsOnly (globComponents glob) := by
  have hne : globComponents glob ≠ [] := components_ne_nil (normaliseSeparators glob)
  have h := globMatch_join_iff hne (Lines.unbroken_split '/' _)
  have hjoin : join '/' (globComponents glob) = normaliseSeparators glob := Lines.join_split '/' _
  rw [hjoin] at h
  exact Bool.eq_iff_iff.mpr h

end ShaderClippy.Config
