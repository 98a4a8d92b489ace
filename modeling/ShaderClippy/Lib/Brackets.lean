/-
  ShaderClippy.Lib.Brackets

  **MATCHING BRACKETS.**

  Words over letters that open a bracket, close one or do neither. Which
  closing bracket belongs to an opening one is said by a grammar: what stands
  between them is a balanced word (`Balanced`). A counter of open brackets
  finds it (`afterClose_iff`), so there is at most one.
-/

namespace ShaderClippy.Brackets

/-- What a letter does. -/
inductive Kind where
  | opening
  | closing
  | other
  deriving DecidableEq, Repr

variable {α : Type} {kind : α → Kind}

/-- Every bracket of the word has its partner in the word. -/
inductive Balanced (kind : α → Kind) : List α → Prop
  | nil : Balanced kind []
  | other {a : α} {w : List α} : kind a = .other → Balanced kind w → Balanced kind (a :: w)
  | nest {o c : α} {inner w : List α} : kind o = .opening → Balanced kind inner →
      kind c = .closing → Balanced kind w → Balanced kind (o :: (inner ++ c :: w))

/-- The word is cut at the partner of a bracket opened just before it. -/
structure Matching (kind : α → Kind) (word inner : List α) (close : α) (rest : List α) : Prop where
  cut : word = inner ++ close :: rest
  balanced : Balanced kind inner
  closing : kind close = .closing

/-- What stands behind the bracket that closes the last of `depth` open ones,
by counting. -/
def afterClose (kind : α → Kind) : Nat → List α → Option (List α)
  | _, [] => none
  | depth, a :: word =>
      match kind a with
      | .opening => afterClose kind (depth + 1) word
      | .closing => if depth = 1 then some word else afterClose kind (depth - 1) word
      | .other => afterClose kind depth word

theorem afterClose_opening {a : α} (ha : kind a = .opening) (depth : Nat) (word : List α) :
    afterClose kind depth (a :: word) = afterClose kind (depth + 1) word := by
  rw [afterClose, ha]

theorem afterClose_closing {a : α} (ha : kind a = .closing) (depth : Nat) (word : List α) :
    afterClose kind depth (a :: word)
      = if depth = 1 then some word else afterClose kind (depth - 1) word := by
  rw [afterClose, ha]

theorem afterClose_other {a : α} (ha : kind a = .other) (depth : Nat) (word : List α) :
    afterClose kind depth (a :: word) = afterClose kind depth word := by
  rw [afterClose, ha]

/-- The partners of `depth` brackets opened before the word, innermost first. -/
inductive Closes (kind : α → Kind) : Nat → List α → List α → Prop
  | zero (rest : List α) : Closes kind 0 rest rest
  | succ {depth : Nat} {word inner mid rest : List α} {close : α} :
      Matching kind word inner close mid → Closes kind depth mid rest →
      Closes kind (depth + 1) word rest

theorem closes_zero {word rest : List α} : Closes kind 0 word rest ↔ word = rest := by
  constructor
  · intro h
    cases h
    rfl
  · intro h
    subst h
    exact .zero word

theorem closes_nil {depth : Nat} {rest : List α} : ¬ Closes kind (depth + 1) [] rest := by
  intro h
  cases h with
  | succ hmatch _ => exact absurd hmatch.cut (by simp)

/-- A letter that is no bracket is passed over. -/
theorem closes_other {a : α} (ha : kind a = .other) {depth : Nat} {word rest : List α} :
    Closes kind (depth + 1) (a :: word) rest ↔ Closes kind (depth + 1) word rest := by
  constructor
  · intro h
    cases h with
    | @succ _ _ inner mid _ close hmatch hrest =>
        obtain ⟨hcut, hbal, hclose⟩ := hmatch
        cases hbal with
        | nil =>
            cases hcut
            rw [ha] at hclose
            exact absurd hclose nofun
        | other _ hw =>
            cases hcut
            exact .succ ⟨rfl, hw, hclose⟩ hrest
        | nest ho _ _ _ =>
            cases hcut
            rw [ha] at ho
            exact absurd ho nofun
  · intro h
    cases h with
    | @succ _ _ inner mid _ close hmatch hrest =>
        refine .succ ⟨?_, .other ha hmatch.balanced, hmatch.closing⟩ hrest
        rw [hmatch.cut, List.cons_append]

/-- A closing bracket closes the innermost open one. -/
theorem closes_closing {a : α} (ha : kind a = .closing) {depth : Nat} {word rest : List α} :
    Closes kind (depth + 1) (a :: word) rest ↔ Closes kind depth word rest := by
  constructor
  · intro h
    cases h with
    | @succ _ _ inner mid _ close hmatch hrest =>
        obtain ⟨hcut, hbal, hclose⟩ := hmatch
        cases hbal with
        | nil =>
            cases hcut
            exact hrest
        | other h' _ =>
            cases hcut
            rw [ha] at h'
            exact absurd h' nofun
        | nest ho _ _ _ =>
            cases hcut
            rw [ha] at ho
            exact absurd ho nofun
  · intro h
    exact .succ ⟨rfl, .nil, ha⟩ h

/-- An opening bracket is one more to close. -/
theorem closes_opening {a : α} (ha : kind a = .opening) {depth : Nat} {word rest : List α} :
    Closes kind (depth + 1) (a :: word) rest ↔ Closes kind (depth + 2) word rest := by
  constructor
  · intro h
    cases h with
    | @succ _ _ inner mid _ close hmatch hrest =>
        obtain ⟨hcut, hbal, hclose⟩ := hmatch
        cases hbal with
        | nil =>
            cases hcut
            rw [ha] at hclose
            exact absurd hclose nofun
        | other h' _ =>
            cases hcut
            rw [ha] at h'
            exact absurd h' nofun
        | @nest _ c inner' w ho hinner hc hw =>
            -- the inner bracket closes first, then the outer one
            cases hcut
            refine .succ ⟨?_, hinner, hc⟩ (.succ ⟨rfl, hw, hclose⟩ hrest)
            exact List.append_assoc inner' (c :: w) (close :: mid)
  · intro h
    cases h with
    | @succ _ _ inner mid _ close hmatch hrest =>
        cases hrest with
        | @succ _ _ inner' mid' _ close' hmatch' hrest' =>
            refine .succ 
              ⟨?_, .nest ha hmatch.balanced hmatch.closing hmatch'.balanced, hmatch'.closing⟩ hrest'
            rw [hmatch.cut, hmatch'.cut, List.cons_append, List.append_assoc, List.cons_append]

/-- Counting finds the partners of all open brackets. -/
theorem afterClose_closes (word rest : List α) :
    ∀ depth, afterClose kind (depth + 1) word = some rest ↔ Closes kind (depth + 1) word rest := by
  induction word with
  | nil =>
      intro depth
      exact iff_of_false nofun closes_nil
  | cons a word ih =>
      intro depth
      cases ha : kind a with
      | opening => rw [afterClose_opening ha, ih (depth + 1), closes_opening ha]
      | other => rw [afterClose_other ha, ih depth, closes_other ha]
      | closing =>
          rw [afterClose_closing ha, closes_closing ha]
          cases depth with
          | zero => rw [if_pos rfl, closes_zero, Option.some.injEq]
          | succ depth => rw [if_neg (by omega), Nat.add_sub_cancel, ih depth]

/-- **Counting finds the partner** of a bracket opened just before the word. -/
theorem afterClose_iff {word rest : List α} :
    afterClose kind 1 word = some rest ↔ ∃ inner close, Matching kind word inner close rest := by
  rw [afterClose_closes word rest 0]
  constructor
  · intro h
    cases h with
    | @succ _ _ inner mid _ close hmatch hrest =>
        cases closes_zero.mp hrest
        exact ⟨inner, close, hmatch⟩
  · intro ⟨inner, close, hmatch⟩
    exact .succ hmatch (.zero rest)

/-! ## Counting all brackets of a word. -/

/-- How many letters open a bracket. -/
def openings (kind : α → Kind) (s : List α) : Nat := s.countP fun a => kind a = .opening

/-- How many letters close one. -/
def closings (kind : α → Kind) (s : List α) : Nat := s.countP fun a => kind a = .closing

theorem openings_append (s t : List α) : openings kind (s ++ t) = openings kind s + openings kind t :=
  List.countP_append

theorem closings_append (s t : List α) : closings kind (s ++ t) = closings kind s + closings kind t :=
  List.countP_append

theorem openings_cons (a : α) (s : List α) :
    openings kind (a :: s) = openings kind s + if kind a = .opening then 1 else 0 := by
  rw [openings, List.countP_cons, openings]
  simp only [decide_eq_true_eq]

theorem closings_cons (a : α) (s : List α) :
    closings kind (a :: s) = closings kind s + if kind a = .closing then 1 else 0 := by
  rw [closings, List.countP_cons, closings]
  simp only [decide_eq_true_eq]

/-- Nowhere in the word have more brackets been closed than were open, `depth`
of them from the beginning. -/
def Covered (kind : α → Kind) (depth : Nat) (w : List α) : Prop :=
  ∀ p, p <+: w → closings kind p ≤ openings kind p + depth

theorem covered_nil (depth : Nat) : Covered kind depth [] := by
  intro p hp
  rw [List.prefix_nil.mp hp]
  exact Nat.zero_le _

/-- One letter in front. -/
theorem covered_cons {a : α} {depth : Nat} {w : List α} :
    Covered kind depth (a :: w) ↔ ∀ p, p <+: w →
      closings kind (a :: p) ≤ openings kind (a :: p) + depth := by
  constructor
  · exact fun h p hp => h (a :: p) (List.cons_prefix_cons.mpr ⟨rfl, hp⟩)
  · intro h p hp
    cases p with
    | nil => exact Nat.zero_le _
    | cons b p =>
        obtain ⟨rfl, hp'⟩ := List.cons_prefix_cons.mp hp
        exact h p hp'

/-- A word that is one of two begins with ends in the first or in the second. -/
theorem prefix_append {p s t : List α} (h : p <+: s ++ t) : p <+: s ∨ ∃ q, q <+: t ∧ p = s ++ q := by
  obtain ⟨r, hr⟩ := h
  obtain ⟨u, hs, -⟩ | ⟨q, hp, ht⟩ := List.append_eq_append_iff.mp hr
  · exact Or.inl ⟨u, hs.symm⟩
  · exact Or.inr ⟨q, ⟨r, ht.symm⟩, hp⟩

/-- The first letter that closes more than was open. -/
theorem first_closing {w : List α} {depth : Nat} (h : openings kind w + depth < closings kind w) :
    ∃ inner c rest, w = inner ++ c :: rest ∧ kind c = .closing
      ∧ closings kind inner = openings kind inner + depth ∧ Covered kind depth inner := by
  induction w generalizing depth with
  | nil => exact absurd h (Nat.not_lt_zero _)
  | cons a w ih =>
      rw [openings_cons, closings_cons] at h
      have hstep : ∀ {d : Nat}, openings kind w + d < closings kind w →
          (∀ p, closings kind p ≤ openings kind p + d → closings kind (a :: p) ≤ openings kind (a :: p) + depth) →
          (∀ p, closings kind p = openings kind p + d → closings kind (a :: p) = openings kind (a :: p) + depth) →
          ∃ inner c rest, a :: w = inner ++ c :: rest ∧ kind c = .closing
            ∧ closings kind inner = openings kind inner + depth ∧ Covered kind depth inner := by
        intro d hlt hle heq
        obtain ⟨inner, c, rest, rfl, hc, hcount, hcovered⟩ := ih hlt
        exact ⟨a :: inner, c, rest, rfl, hc, heq inner hcount,
          covered_cons.mpr fun p hp => hle p (hcovered p hp)⟩
      cases ha : kind a with
      | other =>
          simp only [ha, reduceCtorEq, if_false, Nat.add_zero] at h
          refine hstep h ?_ ?_
          · intro p hp
            simpa [openings_cons, closings_cons, ha] using hp
          · intro p hp
            simpa [openings_cons, closings_cons, ha] using hp
      | opening =>
          simp only [ha, reduceCtorEq, if_true, if_false, Nat.add_zero] at h
          refine @hstep (depth + 1) (by omega) ?_ ?_
          · intro p hp
            simp only [openings_cons, closings_cons, ha, reduceCtorEq, if_true, if_false]
            omega
          · intro p hp
            simp only [openings_cons, closings_cons, ha, reduceCtorEq, if_true, if_false]
            omega
      | closing =>
          simp only [ha, reduceCtorEq, if_true, if_false, Nat.add_zero] at h
          cases depth with
          | zero => exact ⟨[], a, w, rfl, ha, rfl, covered_nil 0⟩
          | succ depth =>
              refine @hstep depth (by omega) ?_ ?_
              · intro p hp
                simp only [openings_cons, closings_cons, ha, reduceCtorEq, if_true, if_false]
                omega
              · intro p hp
                simp only [openings_cons, closings_cons, ha, reduceCtorEq, if_true, if_false]
                omega

/-- **Balanced words by their counts.** -/
theorem balanced_iff_counts {w : List α} :
    Balanced kind w ↔ Covered kind 0 w ∧ closings kind w = openings kind w := by
  constructor
  · intro h
    induction h with
    | nil => exact ⟨covered_nil 0, rfl⟩
    | @other a w ha _ ih =>
        refine ⟨covered_cons.mpr fun p hp => ?_, ?_⟩
        · have hle := ih.1 p hp
          simpa [openings_cons, closings_cons, ha] using hle
        · simpa [openings_cons, closings_cons, ha] using ih.2
    | @nest o c inner w ho _ hc _ ihinner ihw =>
        refine ⟨covered_cons.mpr fun p hp => ?_, ?_⟩
        · -- the word ends inside the brackets or behind them
          obtain hp | ⟨q, hq, rfl⟩ := prefix_append hp
          · have hle := ihinner.1 p hp
            simp only [openings_cons, closings_cons, ho, reduceCtorEq, if_true, if_false]
            omega
          · have hcount := ihinner.2
            cases q with
            | nil =>
                rw [List.append_nil]
                simp only [openings_cons, closings_cons, ho, reduceCtorEq, if_true, if_false]
                omega
            | cons d q =>
                obtain ⟨rfl, hq'⟩ := List.cons_prefix_cons.mp hq
                have hle := ihw.1 q hq'
                simp only [openings_cons, closings_cons, openings_append, closings_append, ho, hc, reduceCtorEq,
                  if_true, if_false]
                omega
        · have h1 := ihinner.2
          have h2 := ihw.2
          simp only [openings_cons, closings_cons, openings_append, closings_append, ho, hc, reduceCtorEq, if_true,
            if_false]
          omega
  · generalize hn : w.length = n
    induction n using Nat.strongRecOn generalizing w with
    | ind n ih =>
        rintro ⟨hcovered, hcount⟩
        cases w with
        | nil => exact .nil
        | cons a w =>
            rw [covered_cons] at hcovered
            rw [List.length_cons] at hn
            rw [openings_cons, closings_cons] at hcount
            cases ha : kind a with
            | other =>
                simp only [ha, reduceCtorEq, if_false, Nat.add_zero] at hcount
                refine .other ha (ih w.length (by omega) rfl ⟨fun p hp => ?_, hcount⟩)
                have hle := hcovered p hp
                simpa [openings_cons, closings_cons, ha] using hle
            | closing =>
                have hle := hcovered [] List.nil_prefix
                simp [openings, closings, ha] at hle
            | opening =>
                simp only [ha, reduceCtorEq, if_true, if_false, Nat.add_zero] at hcount
                obtain ⟨inner, c, rest, rfl, hc, hinner, hcoveredInner⟩ :=
                  @first_closing _ kind w 0 (by omega)
                rw [List.length_append, List.length_cons] at hn
                simp only [openings_append, closings_append, openings_cons, closings_cons, hc, reduceCtorEq, if_true,
                  if_false] at hcount
                refine .nest ha (ih inner.length (by omega) rfl ⟨hcoveredInner, hinner⟩) hc
                  (ih rest.length (by omega) rfl ⟨fun p hp => ?_, by omega⟩)
                have hle := hcovered (inner ++ c :: p)
                  ((List.prefix_append_right_inj inner).mpr (List.cons_prefix_cons.mpr ⟨rfl, hp⟩))
                simp only [openings_append, closings_append, openings_cons, closings_cons, ha, hc, reduceCtorEq,
                  if_true, if_false] at hle
                omega

/-- A balanced word, by closing one bracket behind it. -/
theorem balanced_iff_afterClose {w : List α} {c : α} (hc : kind c = .closing) :
    Balanced kind w ↔ afterClose kind 1 (w ++ [c]) = some [] := by
  rw [afterClose_iff]
  constructor
  · intro hw
    exact ⟨w, c, rfl, hw, hc⟩
  · rintro ⟨inner, close, hcut, hbalanced, -⟩
    obtain ⟨rfl, -⟩ := List.append_inj' hcut rfl
    exact hbalanced

end ShaderClippy.Brackets
