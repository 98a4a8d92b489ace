/-
  ShaderClippy.Lib.Splice

  **SPLICING EDITS INTO A SEQUENCE, ONE AFTER ANOTHER.**

  An `Edit` replaces the half-open range `[lo, hi)` of a list by `text`.
  Two ways to apply several of them:

    • `run`   — splice them one by one into the mutating list;
    • `subst` — cut the ORIGINAL list at the ranges and put every text in
                its place, all at once.

  `run_eq_subst`: the two agree as soon as every edit is applied before the
  edits that lie to its left (`Descending`). The converse direction is the
  provenance argument of §6: when a non-empty insertion is applied BEFORE an
  edit whose range starts at the insertion point, the first inserted element
  is lost (`run_loses`), so no simultaneous substitution is computed.

  Everything is over an arbitrary element type.
-/
import Mathlib.Data.List.Basic
import Mathlib.Data.List.Pairwise
import Mathlib.Data.List.Sort

namespace Splice

variable {α β : Type}

/-! ## §1. Edits, sequential splicing, simultaneous substitution. -/

/-- Replace `[lo, hi)` by `text`. -/
structure Edit (α : Type) where
  lo : Nat
  hi : Nat
  text : List α
  deriving Repr, DecidableEq

/-- Splice one edit into `xs`. -/
def splice (xs : List α) (e : Edit α) : List α :=
  xs.take e.lo ++ e.text ++ xs.drop e.hi

/-- Splice the edits one after another, skipping those out of range of the
CURRENT list. -/
def run : List α → List (Edit α) → List α
  | xs, [] => xs
  | xs, e :: es =>
      if e.lo > xs.length || e.hi > xs.length || e.hi < e.lo then run xs es
      else run (splice xs e) es

/-- Simultaneous substitution: `xs` is the original from position `pos` on,
the edits come in ascending order. -/
def subst : Nat → List α → List (Edit α) → List α
  | _, xs, [] => xs
  | pos, xs, e :: es =>
      xs.take (e.lo - pos) ++ e.text ++ subst e.hi (xs.drop (e.hi - pos)) es

/-- A range of the first `n` positions. -/
def Edit.InRange (n : Nat) (e : Edit α) : Prop := e.lo ≤ e.hi ∧ e.hi ≤ n

/-- Ascending, non-overlapping edits that start at `pos` or later. -/
def Ordered : Nat → List (Edit α) → Prop
  | _, [] => True
  | pos, e :: es => pos ≤ e.lo ∧ e.lo ≤ e.hi ∧ Ordered e.hi es

/-- In application order: each edit comes before those to its left. -/
def Descending (es : List (Edit α)) : Prop :=
  es.Pairwise (fun a b => b.hi ≤ a.lo)

@[simp] theorem run_nil (xs : List α) : run xs [] = xs := rfl

/-- An edit in range is spliced. -/
theorem run_cons {xs : List α} {e : Edit α} {es : List (Edit α)}
    (h : e.InRange xs.length) : run xs (e :: es) = run (splice xs e) es := by
  obtain ⟨h1, h2⟩ := h
  have hg : (e.lo > xs.length || e.hi > xs.length || e.hi < e.lo) = false := by
    simp only [Bool.or_eq_false_iff, decide_eq_false_iff_not]
    omega
  simp only [run, hg, Bool.false_eq_true, if_false]

theorem splice_length {xs : List α} {e : Edit α} (h : e.InRange xs.length) :
    (splice xs e).length = e.lo + e.text.length + (xs.length - e.hi) := by
  obtain ⟨h1, h2⟩ := h
  simp only [splice, List.length_append, List.length_take, List.length_drop]
  omega

/-- Splicing leaves everything left of the edit alone. -/
theorem take_splice {xs : List α} {e : Edit α} {n : Nat}
    (h : e.InRange xs.length) (hn : n ≤ e.lo) :
    (splice xs e).take n = xs.take n := by
  obtain ⟨h1, h2⟩ := h
  rw [splice, List.append_assoc, List.take_append_of_le_length
    (by rw [List.length_take]; omega), List.take_take, Nat.min_eq_left hn]

/-! ## §2. Right-to-left splicing is simultaneous substitution. -/

/-- Splicing the rightmost edit first and then substituting the others is
substituting all of them. -/
theorem subst_splice_last (a : Edit α) (es : List (Edit α)) :
    ∀ (pos : Nat) (xs : List α), Ordered pos es → (∀ e ∈ es, e.hi ≤ a.lo) →
      pos ≤ a.lo → a.lo ≤ a.hi → a.hi ≤ pos + xs.length →
      subst pos (xs.take (a.lo - pos) ++ a.text ++ xs.drop (a.hi - pos)) es
        = subst pos xs (es ++ [a]) := by
  induction es with
  | nil => intro pos xs _ _ _ _ _; rfl
  | cons e es ih =>
      intro pos xs hord hleft hpos hle hlen
      obtain ⟨he1, he2, hrest⟩ := hord
      have hea : e.hi ≤ a.lo := hleft e (List.mem_cons_self ..)
      have htake : (xs.take (a.lo - pos) ++ a.text ++ xs.drop (a.hi - pos)).take (e.lo - pos)
          = xs.take (e.lo - pos) := by
        rw [List.append_assoc, List.take_append_of_le_length
          (by rw [List.length_take]; omega), List.take_take, Nat.min_eq_left (by omega)]
      have hdrop : (xs.take (a.lo - pos) ++ a.text ++ xs.drop (a.hi - pos)).drop (e.hi - pos)
          = (xs.drop (e.hi - pos)).take (a.lo - e.hi) ++ a.text
              ++ (xs.drop (e.hi - pos)).drop (a.hi - e.hi) := by
        rw [List.append_assoc, List.drop_append_of_le_length
          (by rw [List.length_take]; omega), List.drop_take, List.drop_drop,
          List.append_assoc]
        congr 2
        · omega
        · congr 2; omega
      simp only [List.cons_append, subst]
      rw [htake, hdrop, ih e.hi (xs.drop (e.hi - pos)) hrest
        (fun e' he' => hleft e' (List.mem_cons_of_mem _ he')) hea hle
        (by rw [List.length_drop]; omega)]

theorem Ordered.append_singleton {es : List (Edit α)} {a : Edit α} :
    ∀ {pos : Nat}, Ordered pos es → (∀ e ∈ es, e.hi ≤ a.lo) → pos ≤ a.lo → a.lo ≤ a.hi →
      Ordered pos (es ++ [a]) := by
  induction es with
  | nil => intro pos _ _ hpos hle; exact ⟨hpos, hle, trivial⟩
  | cons e es ih =>
      intro pos hord hleft hpos hle
      obtain ⟨h1, h2, h3⟩ := hord
      exact ⟨h1, h2, ih h3 (fun e' he' => hleft e' (List.mem_cons_of_mem _ he'))
        (hleft e (List.mem_cons_self ..)) hle⟩

/-- A descending list of ranges, read backwards, is ordered. -/
theorem Descending.ordered_reverse {es : List (Edit α)} (hd : Descending es)
    (hr : ∀ e ∈ es, e.lo ≤ e.hi) : Ordered 0 es.reverse := by
  induction es with
  | nil => trivial
  | cons a es ih =>
      rw [List.reverse_cons]
      obtain ⟨ha, hes⟩ := List.pairwise_cons.mp hd
      refine Ordered.append_singleton (ih hes (fun e he => hr e (List.mem_cons_of_mem _ he)))
        (fun e he => ha e (List.mem_reverse.mp he)) (Nat.zero_le _)
        (hr a (List.mem_cons_self ..))

/-- **Right-to-left splicing computes the simultaneous substitution.** -/
theorem run_eq_subst (es : List (Edit α)) :
    ∀ xs : List α, Descending es → (∀ e ∈ es, e.InRange xs.length) →
      run xs es = subst 0 xs es.reverse := by
  induction es with
  | nil => intro xs _ _; rfl
  | cons a es ih =>
      intro xs hd hr
      have ha := hr a (List.mem_cons_self ..)
      obtain ⟨hleft, hes⟩ := List.pairwise_cons.mp hd
      have hr' : ∀ e ∈ es, e.InRange (splice xs a).length := by
        intro e he
        have h1 := hleft e he
        have h2 := (hr e (List.mem_cons_of_mem _ he)).1
        rw [splice_length ha]
        exact ⟨h2, by omega⟩
      rw [run_cons ha, ih (splice xs a) hes hr', List.reverse_cons,
        ← subst_splice_last a es.reverse 0 xs
          (Descending.ordered_reverse hes fun e he => (hr' e he).1)
          (fun e he => hleft e (List.mem_reverse.mp he)) (Nat.zero_le _) ha.1
          (by have := ha.2; omega)]
      rfl

/-! ## §3. Edits that do nothing. -/

/-- An insertion of nothing. -/
def Edit.Noop (e : Edit α) : Prop := e.lo = e.hi ∧ e.text = []

instance (e : Edit α) : Decidable e.Noop := by
  unfold Edit.Noop
  cases h : e.text with
  | nil => exact decidable_of_iff (e.lo = e.hi) (by simp)
  | cons _ _ => exact isFalse (by simp)

theorem run_noop_cons {e : Edit α} (he : e.Noop) (xs : List α) (es : List (Edit α)) :
    run xs (e :: es) = run xs es := by
  obtain ⟨h1, h2⟩ := he
  have hs : splice xs e = xs := by
    rw [splice, h1, h2, List.append_nil, List.take_append_drop]
  simp only [run, hs, ite_self]

theorem run_filter_noop (es : List (Edit α)) :
    ∀ xs : List α, run xs es = run xs (es.filter (fun e => decide (¬ e.Noop))) := by
  induction es with
  | nil => intro xs; rfl
  | cons e es ih =>
      intro xs
      by_cases he : e.Noop
      · rw [run_noop_cons he, List.filter_cons_of_neg (by simpa using he)]
        exact ih xs
      · rw [List.filter_cons_of_pos (by simpa using he), run, run, ih, ih]

/-- Put a do-nothing edit in its place of an ordered list. -/
def insertNoop (n : Edit α) : List (Edit α) → List (Edit α)
  | [] => [n]
  | e :: es => if n.lo ≤ e.lo then n :: e :: es else e :: insertNoop n es

theorem insertNoop_perm (n : Edit α) (es : List (Edit α)) : (insertNoop n es).Perm (n :: es) := by
  induction es with
  | nil => exact List.Perm.refl _
  | cons e es ih =>
      simp only [insertNoop]
      split
      · exact List.Perm.refl _
      · exact (ih.cons e).trans (List.Perm.swap n e es)

/-- Splitting the prefix off before substituting changes nothing. -/
theorem subst_split (es : List (Edit α)) (pos d : Nat) (xs : List α) (h : Ordered (pos + d) es) :
    xs.take d ++ subst (pos + d) (xs.drop d) es = subst pos xs es := by
  cases es with
  | nil => exact List.take_append_drop d xs
  | cons e es =>
      obtain ⟨h1, h2, _⟩ := h
      simp only [subst]
      rw [List.drop_drop, ← List.append_assoc, ← List.append_assoc, ← List.take_add]
      have e1 : d + (e.lo - (pos + d)) = e.lo - pos := by omega
      have e2 : d + (e.hi - (pos + d)) = e.hi - pos := by omega
      rw [e1, e2]

theorem insertNoop_spec {n : Edit α} (hn : n.Noop) (es : List (Edit α)) :
    ∀ (pos : Nat) (xs : List α), Ordered pos es → pos ≤ n.lo →
      (∀ e ∈ es, n.lo ≤ e.lo ∨ e.hi ≤ n.lo) →
      Ordered pos (insertNoop n es) ∧ subst pos xs (insertNoop n es) = subst pos xs es := by
  obtain ⟨h1, h2⟩ := hn
  induction es with
  | nil =>
      intro pos xs _ hpos _
      refine ⟨⟨hpos, by omega, trivial⟩, ?_⟩
      simp only [insertNoop, subst, h2, ← h1, List.append_nil, List.take_append_drop]
  | cons e es ih =>
      intro pos xs hord hpos hsep
      obtain ⟨ho1, ho2, ho3⟩ := hord
      simp only [insertNoop]
      split
      next hle =>
        have hord' : Ordered n.hi (e :: es) := ⟨by omega, ho2, ho3⟩
        refine ⟨⟨hpos, by omega, hord'⟩, ?_⟩
        have hd : n.hi = pos + (n.lo - pos) := by omega
        have := subst_split (e :: es) pos (n.lo - pos) xs (hd ▸ hord')
        rw [subst, h2, List.append_nil, ← h1]
        rw [← hd, ← h1] at this
        exact this
      next hnle =>
        have hsep' := (hsep e (List.mem_cons_self ..)).resolve_left hnle
        obtain ⟨i1, i2⟩ := ih e.hi (xs.drop (e.hi - pos)) ho3 hsep'
          (fun e' he' => hsep e' (List.mem_cons_of_mem _ he'))
        exact ⟨⟨ho1, ho2, i1⟩, by simp only [subst, i2]⟩

/-- Do-nothing edits can be added to an ordered list without changing what
it substitutes. -/
theorem exists_ordered_append_noops (ns : List (Edit α)) (es : List (Edit α)) (xs : List α)
    (hns : ∀ n ∈ ns, n.Noop) (hord : Ordered 0 es)
    (hsep : ∀ n ∈ ns, ∀ e ∈ es, n.lo ≤ e.lo ∨ e.hi ≤ n.lo) :
    ∃ es', es'.Perm (ns ++ es) ∧ Ordered 0 es' ∧ subst 0 xs es' = subst 0 xs es := by
  induction ns with
  | nil => exact ⟨es, List.Perm.refl _, hord, rfl⟩
  | cons n ns ih =>
      obtain ⟨es', hp, ho, hs⟩ := ih (fun m hm => hns m (List.mem_cons_of_mem _ hm))
        (fun m hm => hsep m (List.mem_cons_of_mem _ hm))
      have hn := hns n (List.mem_cons_self ..)
      obtain ⟨hn1, hn2⟩ := hn
      have hsep' : ∀ e ∈ es', n.lo ≤ e.lo ∨ e.hi ≤ n.lo := by
        intro e he
        rcases List.mem_append.mp (hp.mem_iff.mp he) with hm | hm
        · obtain ⟨hm1, _⟩ := hns e (List.mem_cons_of_mem _ hm)
          omega
        · exact hsep n (List.mem_cons_self ..) e hm
      obtain ⟨i1, i2⟩ := insertNoop_spec ⟨hn1, hn2⟩ es' 0 xs ho (Nat.zero_le _) hsep'
      exact ⟨insertNoop n es', (insertNoop_perm n es').trans (hp.cons n), i1, i2.trans hs⟩

/-! ## §4. When splicing in descending order of `lo` is a substitution. -/

/-- Half-open overlap test. -/
def Edit.Overlaps (a b : Edit α) : Prop := a.lo < b.hi ∧ b.lo < a.hi

/-- `a` inserts something at the very start of the non-empty range of `b`. -/
def Edit.InsertsAt (a b : Edit α) : Prop :=
  a.lo = a.hi ∧ a.text ≠ [] ∧ b.lo = a.lo ∧ b.lo < b.hi

/-- Application order: descending `lo`, no two edits overlap, all in range. -/
structure Spliceable (n : Nat) (es : List (Edit α)) : Prop where
  sorted : es.Pairwise (fun a b => b.lo ≤ a.lo)
  apart : es.Pairwise (fun a b => ¬ a.Overlaps b)
  inRange : ∀ e ∈ es, e.InRange n

theorem Spliceable.of_cons {n : Nat} {a : Edit α} {es : List (Edit α)}
    (h : Spliceable n (a :: es)) : Spliceable n es :=
  ⟨(List.pairwise_cons.mp h.sorted).2, (List.pairwise_cons.mp h.apart).2,
    fun e he => h.inRange e (List.mem_cons_of_mem _ he)⟩

/-- Without an early insertion the edits that do something are descending. -/
theorem Spliceable.descending {n : Nat} {es : List (Edit α)} (h : Spliceable n es)
    (hfree : es.Pairwise (fun a b => ¬ a.InsertsAt b)) :
    Descending (es.filter (fun e => decide (¬ e.Noop))) := by
  have hall : es.Pairwise (fun a b => a.Noop ∨ b.hi ≤ a.lo) := by
    refine ((h.sorted.and h.apart).and hfree).imp_of_mem ?_
    rintro a b ha hb ⟨⟨hs, ho⟩, hf⟩
    have hra := (h.inRange a ha).1
    have hrb := (h.inRange b hb).1
    by_cases hle : b.hi ≤ a.lo
    · exact Or.inr hle
    · have hpt : a.hi ≤ b.lo := by
        by_contra hgt
        exact ho ⟨by omega, by omega⟩
      refine Or.inl ⟨by omega, ?_⟩
      by_contra htext
      exact hf ⟨by omega, htext, by omega, by omega⟩
  refine (hall.filter _).imp_of_mem ?_
  intro a b ha _ hab
  exact hab.resolve_left (by simpa using (List.mem_filter.mp ha).2)

/-- **Without an early insertion, splicing is a simultaneous substitution.** -/
theorem Spliceable.run_eq_subst {xs : List α} {es : List (Edit α)}
    (h : Spliceable xs.length es) (hfree : es.Pairwise (fun a b => ¬ a.InsertsAt b)) :
    ∃ es', es'.Perm es ∧ Ordered 0 es' ∧ run xs es = subst 0 xs es' := by
  set act := es.filter (fun e => decide (¬ e.Noop)) with hact
  have hd : Descending act := h.descending hfree
  have hmem : ∀ e ∈ act, e ∈ es := fun e he => (List.mem_filter.mp he).1
  have hord : Ordered 0 act.reverse :=
    Descending.ordered_reverse hd fun e he => (h.inRange e (hmem e he)).1
  have hsep : ∀ n ∈ es.filter (fun e => decide e.Noop), ∀ e ∈ act.reverse,
      n.lo ≤ e.lo ∨ e.hi ≤ n.lo := by
    intro n hn e he
    obtain ⟨hn1, hn2⟩ := List.mem_filter.mp hn
    have hnoop : n.Noop := by simpa using hn2
    have he1 := List.mem_reverse.mp he
    have hne : n ≠ e := by
      rintro rfl
      exact absurd hnoop (by simpa using (List.mem_filter.mp he1).2)
    have hap : ¬ n.Overlaps e := by
      have hsymm : Std.Symm (fun a b : Edit α => ¬ a.Overlaps b) :=
        ⟨fun _ _ hab hba => hab ⟨hba.2, hba.1⟩⟩
      exact h.apart.forall hn1 (hmem e he1) hne
    by_contra hcon
    refine hap ⟨by omega, ?_⟩
    have := hnoop.1
    omega
  obtain ⟨es', hp, ho, hs⟩ := exists_ordered_append_noops
    (es.filter (fun e => decide e.Noop)) act.reverse xs
    (fun n hn => by simpa using (List.mem_filter.mp hn).2) hord hsep
  refine ⟨es', ?_, ho, ?_⟩
  · refine hp.trans (((List.reverse_perm act).append_left _).trans ?_)
    simpa [hact] using List.filter_append_perm (fun e : Edit α => decide e.Noop) es
  · rw [run_filter_noop, hs]
    refine Splice.run_eq_subst act xs hd fun e he => h.inRange e (hmem e he)

/-! ## §5. What an early insertion loses. -/

theorem run_append (es fs : List (Edit α)) :
    ∀ xs : List α, run xs (es ++ fs) = run (run xs es) fs := by
  induction es with
  | nil => intro xs; rfl
  | cons e es ih =>
      intro xs
      rw [List.cons_append, run, run, ih, ih, apply_ite (fun ys => run ys fs)]

/-- Splicing invents no element. -/
theorem not_mem_run {t : α} (es : List (Edit α)) :
    ∀ xs : List α, t ∉ xs → (∀ e ∈ es, t ∉ e.text) → t ∉ run xs es := by
  induction es with
  | nil => intro xs h _; exact h
  | cons e es ih =>
      intro xs h hes
      have htail : ∀ e' ∈ es, t ∉ e'.text := fun e' he' => hes e' (List.mem_cons_of_mem _ he')
      simp only [run]
      split
      · exact ih xs h htail
      · refine ih _ ?_ htail
        simp only [splice, List.mem_append, not_or]
        exact ⟨⟨fun hm => h (List.mem_of_mem_take hm), hes e (List.mem_cons_self ..)⟩,
          fun hm => h (List.mem_of_mem_drop hm)⟩

/-- A substitution contains every replacement text. -/
theorem mem_subst {t : α} {e : Edit α} (es : List (Edit α)) :
    ∀ (pos : Nat) (xs : List α), e ∈ es → t ∈ e.text → t ∈ subst pos xs es := by
  induction es with
  | nil => intro pos xs he _; exact absurd he (List.not_mem_nil)
  | cons a es ih =>
      intro pos xs he ht
      rw [subst, List.mem_append, List.mem_append]
      rcases List.mem_cons.mp he with rfl | he
      · exact Or.inl (Or.inr ht)
      · exact Or.inr (ih a.hi _ he ht)

/-- Edits at or right of `n`, and insertions, keep at least `n` elements. -/
theorem le_length_run {n : Nat} (es : List (Edit α)) :
    ∀ xs : List α, n ≤ xs.length → (∀ e ∈ es, n ≤ e.lo ∨ e.lo = e.hi) →
      n ≤ (run xs es).length := by
  induction es with
  | nil => intro xs h _; exact h
  | cons e es ih =>
      intro xs h hes
      have htail : ∀ e' ∈ es, n ≤ e'.lo ∨ e'.lo = e'.hi :=
        fun e' he' => hes e' (List.mem_cons_of_mem _ he')
      simp only [run]
      split
      · exact ih xs h htail
      next hg =>
        simp only [Bool.or_eq_true, decide_eq_true_eq, not_or] at hg
        have hr : e.InRange xs.length := ⟨by omega, by omega⟩
        refine ih _ ?_ htail
        rw [splice_length hr]
        rcases hes e (List.mem_cons_self ..) with h1 | h1
        · omega
        · omega

/-- An edit whose range starts at `p` swallows an element inserted at `p`. -/
theorem not_mem_splice_insert {t : α} {xs r : List α} {p : Nat} {b : Edit α} (hp : p ≤ xs.length)
    (hb : b.lo = p) (hlt : p < b.hi) (h1 : t ∉ xs) (h2 : t ∉ r) (h3 : t ∉ b.text) :
    t ∉ splice (xs.take p ++ (t :: r) ++ xs.drop p) b := by
  have hl : (xs.take p).length = p := by rw [List.length_take]; omega
  have htake : (xs.take p ++ (t :: r) ++ xs.drop p).take b.lo = xs.take p := by
    rw [hb, List.append_assoc, List.take_append_of_le_length (by omega), List.take_take, min_self]
  have hdrop : (xs.take p ++ (t :: r) ++ xs.drop p).drop b.hi
      = (r ++ xs.drop p).drop (b.hi - p - 1) := by
    rw [List.append_assoc, List.drop_append, List.drop_eq_nil_of_le (by omega), List.nil_append, hl,
      List.cons_append]
    obtain ⟨k, hk⟩ : ∃ k, b.hi - p = k + 1 := ⟨b.hi - p - 1, by omega⟩
    rw [hk, List.drop_succ_cons]
    rfl
  rw [splice, htake, hdrop]
  simp only [List.mem_append, not_or]
  refine ⟨⟨fun hm => h1 (List.mem_of_mem_take hm), h3⟩, fun hm => ?_⟩
  rcases List.mem_append.mp (List.mem_of_mem_drop hm) with hm | hm
  · exact h2 hm
  · exact h1 (List.mem_of_mem_drop hm)

/-- **An insertion spliced before an edit starting at the same point loses its
first element** (only do-nothing insertions stand between the two). -/
theorem not_mem_run_of_insertsAt {t : α} {xs r : List α} {A N C : List (Edit α)} {a b : Edit α}
    (h : Spliceable xs.length (A ++ a :: (N ++ b :: C))) (hab : a.InsertsAt b)
    (ha : a.text = t :: r) (hN : ∀ n ∈ N, n.Noop) (h1 : t ∉ xs) (h2 : t ∉ r)
    (h3 : ∀ e ∈ A ++ (N ++ b :: C), t ∉ e.text) :
    t ∉ run xs (A ++ a :: (N ++ b :: C)) := by
  obtain ⟨ha1, _, hb1, hb2⟩ := hab
  have hA : ∀ e ∈ A, t ∉ e.text := fun e he => h3 e (List.mem_append_left _ he)
  have hC : ∀ e ∈ C, t ∉ e.text := fun e he => h3 e (by simp [he])
  have hys : t ∉ run xs A := not_mem_run A xs h1 hA
  have hbmem : b ∈ A ++ a :: (N ++ b :: C) := by simp
  -- every edit spliced before `b` leaves the range of `b` inside the list
  have hlong : b.hi ≤ (run xs A).length := by
    refine le_length_run A xs (h.inRange b hbmem).2 fun e he => ?_
    have hr := (h.inRange e (by simp [he])).1
    have hs := (List.pairwise_append.mp h.sorted).2.2 e he b (by simp)
    have ho := (List.pairwise_append.mp h.apart).2.2 e he b (by simp)
    by_contra hcon
    exact ho ⟨by omega, by omega⟩
  set ys := run xs A with hysdef
  have hra : a.InRange ys.length := ⟨by omega, by omega⟩
  have hsp : splice ys a = ys.take b.lo ++ (t :: r) ++ ys.drop b.lo := by
    rw [splice, ha, ← ha1, hb1]
  have hrb : b.InRange (splice ys a).length := by
    rw [splice_length hra]
    exact ⟨by omega, by omega⟩
  have hskip : ∀ (N : List (Edit α)) (zs : List α) (fs : List (Edit α)),
      (∀ n ∈ N, n.Noop) → run zs (N ++ fs) = run zs fs := by
    intro N
    induction N with
    | nil => intro zs fs _; rfl
    | cons n N ih =>
        intro zs fs hN
        rw [List.cons_append, run_noop_cons (hN n (List.mem_cons_self ..)),
          ih zs fs (fun m hm => hN m (List.mem_cons_of_mem _ hm))]
  rw [run_append, ← hysdef, run_cons hra, hskip N _ _ hN, run_cons hrb]
  refine not_mem_run C _ ?_ hC
  rw [hsp]
  exact not_mem_splice_insert (by omega) rfl hb2 hys h2 (h3 b (by simp))

/-- The last element with a property, and what follows it. -/
theorem exists_last {p : α → Prop} (l : List α) (h : ∃ a ∈ l, p a) :
    ∃ A a N, l = A ++ a :: N ∧ p a ∧ ∀ n ∈ N, ¬ p n := by
  induction l with
  | nil => obtain ⟨a, ha, _⟩ := h; exact absurd ha (List.not_mem_nil)
  | cons x l ih =>
      by_cases hl : ∃ a ∈ l, p a
      · obtain ⟨A, a, N, rfl, h1, h2⟩ := ih hl
        exact ⟨x :: A, a, N, rfl, h1, h2⟩
      · obtain ⟨a, ha, hpa⟩ := h
        rcases List.mem_cons.mp ha with rfl | ha
        · exact ⟨[], a, l, rfl, hpa, fun n hn hpn => hl ⟨n, hn, hpn⟩⟩
        · exact absurd ⟨a, ha, hpa⟩ hl

/-- The list around an early insertion: only do-nothing edits between it and
the edit it is too early for. -/
theorem Spliceable.exists_insertsAt {n : Nat} {es : List (Edit α)} (h : Spliceable n es)
    (hbad : ¬ es.Pairwise (fun a b => ¬ a.InsertsAt b)) :
    ∃ A a N b C, es = A ++ a :: (N ++ b :: C) ∧ a.InsertsAt b ∧ ∀ e ∈ N, e.Noop := by
  induction es with
  | nil => exact absurd List.Pairwise.nil hbad
  | cons x es ih =>
      by_cases hes : es.Pairwise (fun a b => ¬ a.InsertsAt b)
      · have hx : ∃ b ∈ es, x.InsertsAt b := by
          by_contra hcon
          refine hbad (List.pairwise_cons.mpr ⟨fun b hb hxb => hcon ⟨b, hb, hxb⟩, hes⟩)
        obtain ⟨b, hb, hxb⟩ := hx
        obtain ⟨P, C, rfl⟩ := List.append_of_mem hb
        obtain ⟨A, a, N, hsplit, hab, hlast⟩ :=
          exists_last (p := fun a => a.InsertsAt b) (x :: P)
            ⟨x, List.mem_cons_self .., hxb⟩
        have hwhole : x :: (P ++ b :: C) = A ++ a :: (N ++ b :: C) := by
          rw [← List.cons_append, hsplit, List.append_assoc, List.cons_append]
        refine ⟨A, a, N, b, C, hwhole, hab, fun e he => ?_⟩
        rw [hwhole] at h
        obtain ⟨-, hs, -⟩ := List.pairwise_append.mp h.sorted
        obtain ⟨hs1, hs2⟩ := List.pairwise_cons.mp hs
        obtain ⟨-, ho, -⟩ := List.pairwise_append.mp h.apart
        obtain ⟨-, ho2⟩ := List.pairwise_cons.mp ho
        have hea : e.lo ≤ a.lo := hs1 e (List.mem_append_left _ he)
        have hbe : b.lo ≤ e.lo := (List.pairwise_append.mp hs2).2.2 e he b (by simp)
        have hov := (List.pairwise_append.mp ho2).2.2 e he b (by simp)
        have hre := (h.inRange e (by simp [he])).1
        obtain ⟨_, _, hb1, hb2⟩ := hab
        have hpt : e.lo = e.hi := by
          by_contra hne
          exact hov ⟨by omega, by omega⟩
        refine ⟨hpt, ?_⟩
        by_contra htext
        exact hlast e he ⟨hpt, htext, by omega, hb2⟩
      · obtain ⟨A, a, N, b, C, rfl, h1, h2⟩ := ih h.of_cons hes
        exact ⟨x :: A, a, N, b, C, rfl, h1, h2⟩

/-! ## §6. Provenance: every element remembers where it came from. -/

/-- Where an element of the result comes from: position `i` of the original,
or position `j` of the text of the `k`-th edit. -/
inductive Origin where
  | base (i : Nat)
  | text (k j : Nat)
  deriving Repr, DecidableEq

/-- The original, tagged. -/
def tagBase (xs : List α) : List (α × Origin) :=
  xs.zipIdx.map (fun c => (c.1, Origin.base c.2))

/-- The `k`-th edit, tagged. -/
def tagEdit (k : Nat) (e : Edit α) : Edit (α × Origin) :=
  ⟨e.lo, e.hi, e.text.zipIdx.map (fun c => (c.1, Origin.text k c.2))⟩

/-- All edits, tagged by their place in the application order. -/
def tagEdits (es : List (Edit α)) : List (Edit (α × Origin)) :=
  es.zipIdx.map (fun e => tagEdit e.2 e.1)

/-- **Every edit's range is replaced by its text exactly once and everything
else is kept**: run on tagged elements, splicing gives a simultaneous
substitution of all the edits. -/
def ReplacesOnce (xs : List α) (es : List (Edit α)) : Prop :=
  ∃ es', es'.Perm (tagEdits es) ∧ Ordered 0 es'
    ∧ run (tagBase xs) (tagEdits es) = subst 0 (tagBase xs) es'

@[simp] theorem tagBase_length (xs : List α) : (tagBase xs).length = xs.length := by
  simp [tagBase]

/-- A property of neighbours that only reads ranges and emptiness transfers
to the tagged edits. -/
theorem pairwise_tagEdits {R : Edit α → Edit α → Prop} {S : Edit (α × Origin) → Edit (α × Origin) → Prop}
    (hRS : ∀ j k a b, R a b ↔ S (tagEdit j a) (tagEdit k b)) (es : List (Edit α)) :
    es.Pairwise R ↔ (tagEdits es).Pairwise S := by
  have hidx : es.Pairwise R ↔ es.zipIdx.Pairwise (fun a b => R a.1 b.1) := by
    have := List.pairwise_map (f := (Prod.fst : Edit α × Nat → Edit α)) (R := R) (l := es.zipIdx)
    rw [List.zipIdx_map_fst] at this
    exact this
  rw [hidx, tagEdits, List.pairwise_map]
  constructor <;> intro h <;> refine h.imp ?_
  · exact fun hab => (hRS _ _ _ _).mp hab
  · exact fun hab => (hRS _ _ _ _).mpr hab

theorem insertsAt_tagEdit (j k : Nat) (a b : Edit α) :
    a.InsertsAt b ↔ (tagEdit j a).InsertsAt (tagEdit k b) := by
  simp [Edit.InsertsAt, tagEdit]

theorem Spliceable.tag {xs : List α} {es : List (Edit α)} (h : Spliceable xs.length es) :
    Spliceable (tagBase xs).length (tagEdits es) := by
  refine ⟨(pairwise_tagEdits (fun _ _ _ _ => Iff.rfl) es).mp h.sorted,
    (pairwise_tagEdits (fun _ _ _ _ => Iff.rfl) es).mp h.apart, ?_⟩
  intro e he
  obtain ⟨⟨e', k⟩, hmem, rfl⟩ := List.mem_map.mp he
  rw [tagBase_length]
  exact h.inRange e' (List.fst_mem_of_mem_zipIdx hmem)

theorem mem_tagEdit_text {k : Nat} {e : Edit α} {t : α × Origin} (h : t ∈ (tagEdit k e).text) :
    ∃ j, t.2 = Origin.text k j := by
  obtain ⟨c, _, rfl⟩ := List.mem_map.mp h
  exact ⟨c.2, rfl⟩

theorem nodup_tagEdit_text (k : Nat) (e : Edit α) : (tagEdit k e).text.Nodup := by
  refine List.Nodup.of_map Prod.snd ?_
  have hmap : (tagEdit k e).text.map Prod.snd
      = (e.text.zipIdx.map Prod.snd).map (Origin.text k) := by
    simp only [tagEdit, List.map_map]
    rfl
  rw [hmap, List.zipIdx_map_snd]
  exact List.Nodup.map (fun i j hij => by injection hij) List.nodup_range'

/-- No two inserted elements carry the same tag. -/
theorem nodup_texts (es : List (Edit α)) :
    ∀ k, ((es.zipIdx k).map (fun e => tagEdit e.2 e.1)).flatMap (·.text) |>.Nodup := by
  induction es with
  | nil => intro k; exact List.nodup_nil
  | cons e es ih =>
      intro k
      rw [List.zipIdx_cons, List.map_cons, List.flatMap_cons]
      refine (nodup_tagEdit_text k e).append (ih (k + 1)) ?_
      intro t h1 h2
      obtain ⟨j, hj⟩ := mem_tagEdit_text h1
      obtain ⟨e', he', ht⟩ := List.mem_flatMap.mp h2
      obtain ⟨⟨d, i⟩, hd, rfl⟩ := List.mem_map.mp he'
      obtain ⟨j', hj'⟩ := mem_tagEdit_text ht
      rw [hj] at hj'
      injection hj' with hki
      have := List.le_snd_of_mem_zipIdx hd
      simp only at hki this
      omega

/-- **Splicing in descending order of `lo` replaces every edit exactly once
IF AND ONLY IF no non-empty insertion is spliced before an edit whose range
starts at the insertion point.** -/
theorem Spliceable.replacesOnce_iff {xs : List α} {es : List (Edit α)}
    (h : Spliceable xs.length es) :
    ReplacesOnce xs es ↔ es.Pairwise (fun a b => ¬ a.InsertsAt b) := by
  have htag : es.Pairwise (fun a b => ¬ a.InsertsAt b)
      ↔ (tagEdits es).Pairwise (fun a b => ¬ a.InsertsAt b) :=
    pairwise_tagEdits (fun j k a b => not_congr (insertsAt_tagEdit j k a b)) es
  rw [htag]
  constructor
  · rintro ⟨es', hperm, -, hrun⟩
    by_contra hbad
    obtain ⟨A, a, N, b, C, hsplit, hab, hN⟩ := h.tag.exists_insertsAt hbad
    obtain ⟨t, r, ht⟩ := List.exists_cons_of_ne_nil hab.2.1
    have hnd := nodup_texts es 0
    have hsp := h.tag
    change ((tagEdits es).flatMap (·.text)).Nodup at hnd
    rw [hsplit] at hnd hsp hrun
    rw [List.flatMap_append, List.flatMap_cons, ht] at hnd
    obtain ⟨-, hnd2, hdis⟩ := List.nodup_append'.mp hnd
    rw [List.cons_append, List.nodup_cons, List.mem_append, not_or] at hnd2
    have hbase : t ∉ tagBase xs := by
      intro hm
      obtain ⟨c, _, hc⟩ := List.mem_map.mp hm
      have hta : t ∈ a.text := by rw [ht]; exact List.mem_cons_self ..
      have hmem : a ∈ tagEdits es := by rw [hsplit]; simp
      obtain ⟨⟨e, k⟩, _, rfl⟩ := List.mem_map.mp hmem
      obtain ⟨j, hj⟩ := mem_tagEdit_text hta
      rw [← hc] at hj
      exact absurd hj (by simp)
    have hlost := not_mem_run_of_insertsAt hsp hab ht hN hbase hnd2.1.1 (by
      intro e he hte
      rcases List.mem_append.mp he with he | he
      · exact hdis (List.mem_flatMap.mpr ⟨e, he, hte⟩) (List.mem_cons_self ..)
      · exact hnd2.1.2 (List.mem_flatMap.mpr ⟨e, he, hte⟩))
    rw [hrun] at hlost
    refine hlost (mem_subst (e := a) es' 0 _ ?_ (by rw [ht]; exact List.mem_cons_self ..))
    rw [hperm.mem_iff, hsplit]
    simp
  · intro hfree
    exact h.tag.run_eq_subst hfree

end Splice
