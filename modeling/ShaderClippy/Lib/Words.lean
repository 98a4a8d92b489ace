/-
  ShaderClippy.Lib.Words

  **LOOKING FOR A WORD IN A TEXT.**

  `p` says which characters make words. `find` goes through a text to the
  first place where a word stands alone, no word character in front of it and
  none behind, and returns what is behind. `Quiet` texts are made of other
  words and of separators; `find` passes over them (`find_quiet`).
-/
import Mathlib.Data.List.Infix

namespace Words

variable {α : Type} {p : α → Bool} {word : List α}

/-- What is behind the first `word` that stands alone; `inWord` says if a word
character is in front. -/
def find [DecidableEq α] (p : α → Bool) (word : List α) : Bool → List α → Option (List α)
  | _, [] => none
  | inWord, c :: cs =>
      if word.isPrefixOf (c :: cs) && !inWord && !((c :: cs).drop word.length).head?.any p then
        some ((c :: cs).drop word.length)
      else find p word (p c) cs

/-- The first `word` that stands alone and has something behind it that `q` holds
of: its place, counted from `pos`, and what is behind. -/
def findBefore [DecidableEq α] (p q : α → Bool) (word : List α) :
    Bool → Nat → List α → Option (Nat × List α)
  | _, _, [] => none
  | inWord, pos, c :: cs =>
      if word.isPrefixOf (c :: cs) && !inWord && ((c :: cs).drop word.length).head?.any q then
        some (pos, (c :: cs).drop word.length)
      else findBefore p q word (p c) (pos + 1) cs

/-- The text begins with a separator. -/
def Breaks (p : α → Bool) (t : List α) : Prop := ∃ c cs, t = c :: cs ∧ p c = false

/-- Separators, and other words with a separator behind them. -/
inductive Quiet (p : α → Bool) (word : List α) : List α → Prop where
  | nil : Quiet p word []
  | separator {c : α} {t : List α} : p c = false → Quiet p word t → Quiet p word (c :: t)
  | other {w t : List α} : (∀ x ∈ w, p x = true) → w ≠ word → Breaks p t → Quiet p word t →
      Quiet p word (w ++ t)

/-- A quiet text that begins with a separator: it ends any word. -/
structure Closing (p : α → Bool) (word t : List α) : Prop where
  breaks : Breaks p t
  quiet : Quiet p word t

theorem Quiet.append {t u : List α} (ht : Quiet p word t) (hu : Quiet p word u) :
    Quiet p word (t ++ u) := by
  induction ht with
  | nil => exact hu
  | separator hc _ ih => exact .separator hc ih
  | other hw hne hbreaks _ ih =>
      obtain ⟨c, cs, rfl, hc⟩ := hbreaks
      rw [List.append_assoc]
      exact .other hw hne ⟨c, cs ++ u, rfl, hc⟩ ih

theorem closing_cons {c : α} {t : List α} (hc : p c = false) (ht : Quiet p word t) :
    Closing p word (c :: t) := ⟨⟨c, t, rfl, hc⟩, .separator hc ht⟩

/-- Separators in front. -/
theorem Quiet.separators {g t : List α} (hg : ∀ c ∈ g, p c = false) (ht : Quiet p word t) :
    Quiet p word (g ++ t) := by
  induction g with
  | nil => exact ht
  | cons c cs ih =>
      exact .separator (hg c List.mem_cons_self) (ih fun d hd => hg d (List.mem_cons_of_mem c hd))

theorem Closing.separators {g t : List α} (hg : ∀ c ∈ g, p c = false) (ht : Closing p word t) :
    Closing p word (g ++ t) := by
  refine ⟨?_, ht.quiet.separators hg⟩
  cases g with
  | nil => exact ht.breaks
  | cons c cs => exact ⟨c, cs ++ t, rfl, hg c List.mem_cons_self⟩

/-- The characters of a word, up to a separator. -/
theorem takeWhile_word {w t : List α} (hw : ∀ x ∈ w, p x = true) (ht : Breaks p t) :
    (w ++ t).takeWhile p = w := by
  obtain ⟨c, cs, rfl, hc⟩ := ht
  rw [List.takeWhile_append_of_pos hw, List.takeWhile_cons_of_neg (by rw [hc]; nofun),
    List.append_nil]

theorem dropWhile_word {w t : List α} (hw : ∀ x ∈ w, p x = true) (ht : Breaks p t) :
    (w ++ t).dropWhile p = t := by
  obtain ⟨c, cs, rfl, hc⟩ := ht
  rw [List.dropWhile_append_of_pos hw, List.dropWhile_cons_of_neg (by rw [hc]; nofun)]

theorem Breaks.append {t : List α} (ht : Breaks p t) (s : List α) : Breaks p (t ++ s) := by
  obtain ⟨c, cs, rfl, hc⟩ := ht
  exact ⟨c, cs ++ s, rfl, hc⟩

/-- **A word that stands alone is found.** -/
theorem find_word [DecidableEq α] (hne : word ≠ []) {s : List α} (hs : Breaks p s) :
    find p word false (word ++ s) = some s := by
  have hbegins : word.isPrefixOf (word ++ s) = true :=
    List.isPrefixOf_iff_prefix.mpr (List.prefix_append _ _)
  have halone : ((word ++ s).drop word.length).head?.any p = false := by
    obtain ⟨c, cs, rfl, hc⟩ := hs
    rw [List.drop_left]
    exact hc
  obtain ⟨d, ds, hcons⟩ := List.exists_cons_of_ne_nil hne
  have hdrop : (word ++ s).drop word.length = s := List.drop_left
  rw [hcons] at hbegins halone hdrop ⊢
  rw [List.cons_append] at hbegins halone hdrop ⊢
  rw [find, hbegins, halone, hdrop]
  rfl

section

variable [DecidableEq α] (hne : word ≠ []) (hword : ∀ c ∈ word, p c = true)

include hne hword

/-- No word begins with a separator. -/
theorem find_separator {c : α} (hc : p c = false) (inWord : Bool) (s : List α) :
    find p word inWord (c :: s) = find p word false s := by
  have hbegins : word.isPrefixOf (c :: s) = false := by
    rw [← Bool.not_eq_true, List.isPrefixOf_iff_prefix]
    rintro ⟨rest, hrest⟩
    cases word with
    | nil => exact hne rfl
    | cons d ds =>
        have hd : d = c := (List.cons.inj hrest).1
        have hp := hword d List.mem_cons_self
        rw [hd, hc] at hp
        exact Bool.false_ne_true hp
  rw [find, hbegins, hc]
  rfl

/-- In a word no word begins. -/
theorem find_inWord {w t : List α} (hw : ∀ x ∈ w, p x = true) (ht : Breaks p t) :
    find p word true (w ++ t) = find p word false t := by
  induction w with
  | nil =>
      obtain ⟨c, cs, rfl, hc⟩ := ht
      rw [List.nil_append, find_separator hne hword hc, find_separator hne hword hc]
  | cons x xs ih =>
      have hx := hw x List.mem_cons_self
      rw [List.cons_append, find, Bool.not_true, Bool.and_false, Bool.false_and, hx]
      exact ih fun y hy => hw y (List.mem_cons_of_mem x hy)

omit hne in
/-- Another word is not the one that is looked for, even if it begins like it. -/
theorem not_stands {w t : List α} (hw : ∀ x ∈ w, p x = true) (hother : w ≠ word)
    (ht : Breaks p t) :
    (word.isPrefixOf (w ++ t) && !((w ++ t).drop word.length).head?.any p) = false := by
  obtain ⟨c, s, rfl, hc⟩ := ht
  rw [← Bool.not_eq_true, Bool.and_eq_true, List.isPrefixOf_iff_prefix]
  rintro ⟨⟨r, hr⟩, halone⟩
  rw [← hr, List.drop_left] at halone
  rcases List.append_eq_append_iff.mp hr with ⟨a, ha, har⟩ | ⟨a, ha, har⟩
  · -- the word goes on behind the one that was looked for
    cases a with
    | nil => exact hother (by rw [ha, List.append_nil])
    | cons y ys =>
        have hy : p y = true := hw y (by rw [ha]; simp)
        rw [har] at halone
        simp [hy] at halone
  · cases a with
    | nil => exact hother (by rw [ha, List.append_nil])
    | cons y ys =>
        have hy : p y = true := hword y (by rw [ha]; simp)
        rw [← (List.cons.inj har).1, hc] at hy
        exact Bool.false_ne_true hy

/-- Another word is passed over. -/
theorem find_other {w t : List α} (hw : ∀ x ∈ w, p x = true) (hother : w ≠ word)
    (ht : Breaks p t) : find p word false (w ++ t) = find p word false t := by
  cases w with
  | nil => rfl
  | cons x xs =>
      have hstands := not_stands hword hw hother ht
      have hx := hw x List.mem_cons_self
      rw [List.cons_append] at hstands ⊢
      rw [find, Bool.not_false, Bool.and_true, hstands, hx]
      exact find_inWord hne hword (fun y hy => hw y (List.mem_cons_of_mem x hy)) ht

/-- **Quiet text is passed over.** -/
theorem find_quiet {t : List α} (ht : Quiet p word t) (s : List α) :
    find p word false (t ++ s) = find p word false s := by
  induction ht with
  | nil => rfl
  | separator hc _ ih =>
      rw [List.cons_append, find_separator hne hword hc]
      exact ih
  | other hw hother hbreaks _ ih =>
      obtain ⟨c, cs, rfl, hc⟩ := hbreaks
      have hbreaks : Breaks p (c :: cs ++ s) := ⟨c, cs ++ s, rfl, hc⟩
      rw [List.append_assoc, find_other hne hword hw hother hbreaks]
      exact ih

/-- From inside a word, too, if a separator comes first. -/
theorem find_closing {t : List α} (ht : Closing p word t) (inWord : Bool) (s : List α) :
    find p word inWord (t ++ s) = find p word false s := by
  rw [← find_quiet hne hword ht.quiet s]
  obtain ⟨c, cs, rfl, hc⟩ := ht.breaks
  rw [List.cons_append, find_separator hne hword hc, find_separator hne hword hc]

/-! The same of `findBefore`, where `q` holds of separators only. -/

variable {q : α → Bool}

omit hne hword in
/-- It goes on from `pos`. -/
theorem findBefore_le {t s : List α} {inWord : Bool} {pos k : Nat}
    (h : findBefore p q word inWord pos t = some (k, s)) : pos ≤ k := by
  induction t generalizing inWord pos with
  | nil => cases h
  | cons c cs ih =>
      rw [findBefore] at h
      split at h
      · cases h
        exact Nat.le_refl _
      · exact Nat.le_of_succ_le (ih h)

theorem findBefore_separator {c : α} (hc : p c = false) (inWord : Bool) (pos : Nat) (s : List α) :
    findBefore p q word inWord pos (c :: s) = findBefore p q word false (pos + 1) s := by
  have hbegins : word.isPrefixOf (c :: s) = false := by
    rw [← Bool.not_eq_true, List.isPrefixOf_iff_prefix]
    rintro ⟨rest, hrest⟩
    obtain ⟨d, ds, hcons⟩ := List.exists_cons_of_ne_nil hne
    have hp := hword d (by rw [hcons]; exact List.mem_cons_self)
    rw [hcons] at hrest
    rw [(List.cons.inj hrest).1, hc] at hp
    exact Bool.false_ne_true hp
  rw [findBefore, hbegins, hc]
  rfl

theorem findBefore_inWord {w t : List α} (hw : ∀ x ∈ w, p x = true) (ht : Breaks p t) :
    ∀ pos, findBefore p q word true pos (w ++ t)
      = findBefore p q word false (pos + w.length) t := by
  induction w with
  | nil =>
      intro pos
      obtain ⟨c, cs, rfl, hc⟩ := ht
      rw [List.nil_append, findBefore_separator hne hword hc, findBefore_separator hne hword hc]
      rfl
  | cons x xs ih =>
      intro pos
      have hx := hw x List.mem_cons_self
      rw [List.cons_append, findBefore, Bool.not_true, Bool.and_false, Bool.false_and, hx,
        List.length_cons, Nat.add_comm xs.length, ← Nat.add_assoc]
      exact ih (fun y hy => hw y (List.mem_cons_of_mem x hy)) (pos + 1)

/-- A word is passed over, if it is another one or `q` does not hold of what is
behind it. -/
theorem findBefore_other (hq : ∀ c, q c = true → p c = false) {w t : List α}
    (hw : ∀ x ∈ w, p x = true) (ht : Breaks p t) (hother : w ≠ word ∨ t.head?.any q = false)
    (pos : Nat) :
    findBefore p q word false pos (w ++ t) = findBefore p q word false (pos + w.length) t := by
  cases w with
  | nil => rfl
  | cons x xs =>
      have hstands : (word.isPrefixOf (x :: xs ++ t)
          && ((x :: xs ++ t).drop word.length).head?.any q) = false := by
        by_cases hsame : x :: xs = word
        · rw [hsame, List.drop_left, hother.resolve_left (not_not.mpr hsame), Bool.and_false]
        · have halone := not_stands hword hw hsame ht
          rw [← Bool.not_eq_true, Bool.and_eq_true]
          rintro ⟨hbegins, hbehind⟩
          rw [hbegins, Bool.true_and, Bool.not_eq_false'] at halone
          obtain ⟨c, hc, hqc⟩ := Option.any_eq_true _ _ |>.mp hbehind
          rw [hc, Option.any_some, hq c hqc] at halone
          exact Bool.false_ne_true halone
      have hx := hw x List.mem_cons_self
      rw [List.cons_append] at hstands ⊢
      rw [findBefore, Bool.not_false, Bool.and_true, hstands, hx, List.length_cons,
        Nat.add_comm xs.length, ← Nat.add_assoc]
      exact findBefore_inWord hne hword (fun y hy => hw y (List.mem_cons_of_mem x hy)) ht (pos + 1)

theorem findBefore_quiet (hq : ∀ c, q c = true → p c = false) {t : List α} (ht : Quiet p word t)
    (s : List α) : ∀ pos, findBefore p q word false pos (t ++ s)
      = findBefore p q word false (pos + t.length) s := by
  induction ht with
  | nil => exact fun pos => rfl
  | separator hc _ ih =>
      intro pos
      rw [List.cons_append, findBefore_separator hne hword hc, ih, List.length_cons,
        Nat.add_right_comm, Nat.add_assoc]
  | @other w t hw hother hbreaks _ ih =>
      intro pos
      obtain ⟨c, cs, rfl, hc⟩ := hbreaks
      have hbreaks : Breaks p (c :: cs ++ s) := ⟨c, cs ++ s, rfl, hc⟩
      rw [List.append_assoc, findBefore_other hne hword hq hw hbreaks (Or.inl hother), ih,
        List.length_append, Nat.add_assoc]

omit hword in
/-- **The word, with something behind it that `q` holds of, is found.** -/
theorem findBefore_word {s : List α} (hs : s.head?.any q = true) (pos : Nat) :
    findBefore p q word false pos (word ++ s) = some (pos, s) := by
  obtain ⟨d, ds, hcons⟩ := List.exists_cons_of_ne_nil hne
  have hbegins : word.isPrefixOf (word ++ s) = true :=
    List.isPrefixOf_iff_prefix.mpr (List.prefix_append _ _)
  have hdrop : (word ++ s).drop word.length = s := List.drop_left
  rw [hcons] at hbegins hdrop ⊢
  rw [List.cons_append] at hbegins hdrop ⊢
  rw [findBefore, hbegins, hdrop, hs]
  rfl

end

end Words
