/-
  ShaderClippy.Lib.SpliceRange

  **WHICH EDITS ARE STILL IN RANGE WHEN THEIR TURN COMES.**

  `Splice.run` skips an edit that does not fit the list the edits before it
  have left. `applied` lists the edits it does splice (`run_eq_applied`).
  Only lengths decide: `turns` follows the length through the edits and says of
  each whether it is spliced, and for edits in descending order of `lo` that do
  not overlap, `inRange_turn_iff` gets rid of the lengths. An edit of the
  original list is always spliced; an edit that reaches past its end is spliced
  only if it begins inside the list and the insertions at its very start,
  spliced before it, fill the gap.

  Edits that do overlap may take room away from one another. `room` is what is
  left of the list where an edit begins, in the least favourable order of the
  edits that begin there.
-/
import Mathlib
import ShaderClippy.Lib.Splice

namespace Splice

variable {α : Type}

/-! ## §1. The guard. -/

instance (n : Nat) (e : Edit α) : Decidable (e.InRange n) :=
  inferInstanceAs (Decidable (_ ∧ _))

/-- The guard of `run`, read as a range. -/
theorem skipped_iff {n : Nat} {e : Edit α} :
    (e.lo > n || e.hi > n || e.hi < e.lo) = true ↔ ¬ e.InRange n := by
  simp only [Bool.or_eq_true, decide_eq_true_eq, Edit.InRange]
  omega

theorem run_cons_eq (xs : List α) (e : Edit α) (es : List (Edit α)) :
    run xs (e :: es) = if e.InRange xs.length then run (splice xs e) es else run xs es := by
  rw [run]
  by_cases h : e.InRange xs.length
  · rw [if_pos h, if_neg fun hs => skipped_iff.mp hs h]
  · rw [if_neg h, if_pos (skipped_iff.mpr h)]

/-! ## §2. Only lengths decide. -/

/-- The length of a list of `n` elements after the edit's turn. -/
def grown (n : Nat) (e : Edit α) : Nat :=
  if e.InRange n then e.lo + e.text.length + (n - e.hi) else n

/-- The edits in their order, each with whether its turn splices it into a list
of `n` elements. -/
def turns : Nat → List (Edit α) → List (Edit α × Bool)
  | _, [] => []
  | n, e :: es => (e, decide (e.InRange n)) :: turns (grown n e) es

theorem turns_append (fs : List (Edit α)) : ∀ (es : List (Edit α)) (n : Nat),
    turns n (es ++ fs) = turns n es ++ turns (es.foldl grown n) fs := by
  intro es
  induction es with
  | nil => intro n; rfl
  | cons e es ih =>
      intro n
      rw [List.cons_append, turns, turns, ih, List.foldl_cons, List.cons_append]

@[simp] theorem map_fst_turns : ∀ (es : List (Edit α)) (n : Nat),
    (turns n es).map Prod.fst = es := by
  intro es
  induction es with
  | nil => intro n; rfl
  | cons e es ih =>
      intro n
      rw [turns, List.map_cons, ih]

/-- An edit is spliced at its turn if it fits the length the edits before leave. -/
theorem mem_turns {e : Edit α} {b : Bool} : ∀ {es : List (Edit α)} {n : Nat},
    (e, b) ∈ turns n es ↔
      ∃ pre post, es = pre ++ e :: post ∧ b = decide (e.InRange (pre.foldl grown n)) := by
  intro es
  induction es with
  | nil =>
      intro n
      constructor
      · intro h
        exact absurd h List.not_mem_nil
      · intro ⟨pre, post, h, _⟩
        exact absurd h (by simp)
  | cons a es ih =>
      intro n
      rw [turns, List.mem_cons, ih]
      constructor
      · rintro (h | ⟨pre, post, rfl, hb⟩)
        · cases h
          exact ⟨[], es, rfl, rfl⟩
        · exact ⟨a :: pre, post, rfl, hb⟩
      · rintro ⟨pre, post, hsplit, hb⟩
        cases pre with
        | nil =>
            cases hsplit
            exact .inl (by rw [hb]; rfl)
        | cons c pre =>
            cases hsplit
            exact .inr ⟨pre, post, rfl, hb⟩

/-- The edits that are spliced into a list of `n` elements, in order. -/
def applied (n : Nat) (es : List (Edit α)) : List (Edit α) := ((turns n es).filter Prod.snd).map Prod.fst

/-- **`run` splices the applied edits and no other.** -/
theorem run_eq_applied (es : List (Edit α)) :
    ∀ xs : List α, run xs es = (applied xs.length es).foldl splice xs := by
  induction es with
  | nil => intro xs; rfl
  | cons e es ih =>
      intro xs
      rw [run_cons_eq, applied, turns, grown]
      by_cases h : e.InRange xs.length
      · rw [if_pos h, if_pos h, ih, splice_length h]
        simp [h, applied]
      · rw [if_neg h, if_neg h, ih]
        simp [h, applied]

/-- What splicing the edit adds to the length. -/
def Edit.gain (e : Edit α) : Int := e.text.length - (e.hi - e.lo : Int)

theorem grown_eq {n : Nat} {e : Edit α} (h : e.InRange n) : (grown n e : Int) = n + e.gain := by
  obtain ⟨h1, h2⟩ := h
  rw [grown, if_pos ⟨h1, h2⟩, Edit.gain]
  omega

/-- The length at the end is what the spliced edits make of it. -/
theorem foldl_grown_eq : ∀ (es : List (Edit α)) (n : Nat), ((es.foldl grown n : Nat) : Int)
    = n + ((turns n es).map fun t => if t.2 then t.1.gain else 0).sum := by
  intro es
  induction es with
  | nil => intro n; simp [turns]
  | cons e es ih =>
      intro n
      rw [List.foldl_cons, ih, turns, List.map_cons, List.sum_cons]
      by_cases h : e.InRange n
      · rw [grown_eq h]
        simp [h, Int.add_assoc]
      · simp [h, grown]

/-- A lower bound for every turn is one for the length. -/
theorem le_foldl_grown {es : List (Edit α)} {n : Nat} (low : Edit α → Int)
    (h : ∀ e b, (e, b) ∈ turns n es → low e ≤ if b then e.gain else 0) :
    n + (es.map low).sum ≤ ((es.foldl grown n : Nat) : Int) := by
  rw [foldl_grown_eq]
  have hsum : ((turns n es).map fun t => low t.1).sum
      ≤ ((turns n es).map fun t => if t.2 then t.1.gain else 0).sum :=
    List.sum_le_sum fun t ht => h t.1 t.2 ht
  have hmap : (turns n es).map (fun t => low t.1) = es.map low := by
    rw [← Function.comp_def, ← List.map_map, map_fst_turns]
  rw [hmap] at hsum
  omega

/-! ## §3. Descending edits that do not overlap. -/

/-- How much text is inserted at `p`. -/
def insertedAt (p : Nat) (es : List (Edit α)) : Nat :=
  ((es.filter fun e => decide (e.lo = p ∧ e.hi = p)).map fun e => e.text.length).sum

theorem insertedAt_append (p : Nat) (es fs : List (Edit α)) :
    insertedAt p (es ++ fs) = insertedAt p es + insertedAt p fs := by
  simp only [insertedAt, List.filter_append, List.map_append, List.sum_append]

theorem insertedAt_singleton (p : Nat) (e : Edit α) :
    insertedAt p [e] = if e.lo = p ∧ e.hi = p then e.text.length else 0 := by
  unfold insertedAt
  by_cases h : e.lo = p ∧ e.hi = p
  · simp [h]
  · simp [h]

theorem insertedAt_eq_zero {p : Nat} {es : List (Edit α)}
    (h : ∀ e ∈ es, ¬ (e.lo = p ∧ e.hi = p)) : insertedAt p es = 0 := by
  have hnil : es.filter (fun e => decide (e.lo = p ∧ e.hi = p)) = [] := by
    rw [List.filter_eq_nil_iff]
    intro e he
    simpa using h e he
  rw [insertedAt, hnil]
  rfl

theorem insertedAt_perm {p : Nat} {es fs : List (Edit α)} (h : es.Perm fs) :
    insertedAt p es = insertedAt p fs :=
  ((h.filter _).map _).sum_nat

theorem insertedAt_append_le (p : Nat) (es fs : List (Edit α)) :
    insertedAt p es ≤ insertedAt p (es ++ fs) := by
  rw [insertedAt_append]
  omega

/-- The edit begins in a list of `n` elements, reaches past its end, and `k`
more elements would make room for it. -/
def Edit.Straddles (n k : Nat) (e : Edit α) : Prop := e.lo ≤ n ∧ n < e.hi ∧ e.hi ≤ n + k

instance (n k : Nat) (e : Edit α) : Decidable (e.Straddles n k) :=
  inferInstanceAs (Decidable (_ ∧ _))

/-- **Step lemma**: an edit to the right takes no room away from `e`. -/
theorem le_grown {n : Nat} {a e : Edit α} (hle : e.lo ≤ a.lo)
    (hapart : ¬ a.Overlaps e) (hn : e.hi ≤ n) : e.hi ≤ grown n a := by
  unfold grown
  split
  next ha =>
    obtain ⟨h1, h2⟩ := ha
    by_cases hright : e.hi ≤ a.lo
    · omega
    · -- `a` begins inside `e`, so it is an insertion at the very start
      have hpoint : ¬ e.lo < a.hi := fun h => hapart ⟨by omega, h⟩
      omega
  next => exact hn

/-- **Run lemma**: neither do all the edits spliced before it. -/
theorem le_grown_foldl {e : Edit α} :
    ∀ {pre : List (Edit α)} {n : Nat}, (∀ a ∈ pre, e.lo ≤ a.lo) →
      (∀ a, (a, true) ∈ turns n pre → ¬ a.Overlaps e) →
      e.hi ≤ n → e.hi ≤ pre.foldl grown n := by
  intro pre
  induction pre with
  | nil => intro n _ _ hn; exact hn
  | cons a pre ih =>
      intro n hsorted hapart hn
      rw [turns] at hapart
      have hstep : e.hi ≤ grown n a := by
        by_cases ha : a.InRange n
        · exact le_grown (hsorted a (List.mem_cons_self ..)) (hapart a (by simp [ha])) hn
        · rw [grown, if_neg ha]
          exact hn
      exact ih (fun b hb => hsorted b (List.mem_cons_of_mem _ hb))
        (fun b hb => hapart b (List.mem_cons_of_mem _ hb)) hstep

theorem mem_of_turns {n : Nat} {es : List (Edit α)} {e : Edit α} {b : Bool}
    (h : (e, b) ∈ turns n es) : e ∈ es := by
  rw [← map_fst_turns es n]
  exact List.mem_map_of_mem h

/-- Edits that begin past the end are skipped. -/
theorem grown_foldl_outside {n : Nat} : ∀ {pre : List (Edit α)}, (∀ a ∈ pre, n < a.lo) →
    pre.foldl grown n = n := by
  intro pre
  induction pre with
  | nil => intro _; rfl
  | cons a pre ih =>
      intro h
      have ha : n < a.lo := h a (List.mem_cons_self ..)
      have hskip : grown n a = n := if_neg fun hr => by
        have := hr.1
        have := hr.2
        omega
      rw [List.foldl_cons, hskip]
      exact ih fun b hb => h b (List.mem_cons_of_mem _ hb)

/-- Before an edit that straddles the end, only insertions at its start have
been spliced. -/
theorem grown_foldl_straddle {n : Nat} {e : Edit α} (hlo : e.lo ≤ n) (hhi : n < e.hi) :
    ∀ {pre : List (Edit α)}, pre.Pairwise (fun a b => b.lo ≤ a.lo) →
      (∀ a ∈ pre, e.lo ≤ a.lo) → (∀ a ∈ pre, ¬ a.Overlaps e) →
        pre.foldl grown n = n + insertedAt e.lo pre := by
  intro pre
  induction pre using List.reverseRecOn with
  | nil => intro _ _ _; rfl
  | append_singleton pre a ih =>
      intro hsorted hle hapart
      obtain ⟨hpre, -, hlast⟩ := List.pairwise_append.mp hsorted
      have ha : e.lo ≤ a.lo := hle a (by simp)
      have haparta : ¬ a.Overlaps e := hapart a (by simp)
      have hih := ih hpre (fun b hb => hle b (List.mem_append_left _ hb))
        fun b hb => hapart b (List.mem_append_left _ hb)
      rw [List.foldl_append, List.foldl_cons, List.foldl_nil, hih, insertedAt_append,
        insertedAt_singleton]
      by_cases hat : a.lo = e.lo
      · -- at the start of `e`: an insertion there fits, anything else is inverted
        have hpoint : ¬ e.lo < a.hi := fun h => haparta ⟨by omega, h⟩
        unfold grown
        by_cases hins : a.hi = e.lo
        · have hfits : a.InRange (n + insertedAt e.lo pre) := ⟨by omega, by omega⟩
          rw [if_pos hfits, if_pos ⟨hat, hins⟩]
          omega
        · have hskip : ¬ a.InRange (n + insertedAt e.lo pre) := fun hr => by
            have := hr.1
            omega
          rw [if_neg hskip, if_neg fun hp => hins hp.2]
          omega
      · -- to the right of `e`, and so past the end: nothing has been inserted yet
        have hzero : insertedAt e.lo pre = 0 := insertedAt_eq_zero fun b hb hbe => by
          have := hlast b hb a (List.mem_singleton_self a)
          omega
        have hskip : ¬ a.InRange n := fun hr => haparta ⟨by
          have := hr.1
          have := hr.2
          omega, by
          have := hr.1
          omega⟩
        rw [hzero, Nat.add_zero, grown, if_neg hskip, if_neg (by omega), Nat.add_zero]

/-- Before an edit that straddles the end, the list is no longer than the
insertions at its start make it, if nothing that was spliced overlaps it. -/
theorem foldl_grown_le {n : Nat} {e : Edit α} (hhi : n < e.hi) :
    ∀ {pre : List (Edit α)}, (∀ a ∈ pre, e.lo ≤ a.lo) →
      (∀ a, (a, true) ∈ turns n pre → a.lo ≤ n ∧ ¬ a.Overlaps e) →
        pre.foldl grown n ≤ n + insertedAt e.lo pre := by
  intro pre
  induction pre using List.reverseRecOn with
  | nil => intro _ _; exact Nat.le_refl _
  | append_singleton pre a ih =>
      intro hle hapart
      have hih := ih (fun b hb => hle b (List.mem_append_left _ hb)) fun b hb =>
        hapart b (by rw [turns_append]; exact List.mem_append_left _ hb)
      rw [List.foldl_append, List.foldl_cons, List.foldl_nil, insertedAt_append]
      by_cases ha : a.InRange (pre.foldl grown n)
      · -- what is spliced and does not overlap `e` is an insertion at its start
        have hle' := hle a (by simp)
        obtain ⟨hlo', hapart'⟩ := hapart a (by rw [turns_append]; simp [turns, ha])
        have hpoint : ¬ e.lo < a.hi := fun h => hapart' ⟨by omega, h⟩
        have ha' := ha.1
        rw [insertedAt_singleton, if_pos ⟨by omega, by omega⟩, grown, if_pos ha]
        omega
      · rw [grown, if_neg ha]
        omega

/-- **Is the edit in range at its turn?**  Exactly if it is in range from the
start, or straddles the end and the insertions before it make room. -/
theorem inRange_turn_iff {n : Nat} {e : Edit α} {pre : List (Edit α)}
    (hsorted : (pre ++ [e]).Pairwise fun a b => b.lo ≤ a.lo) (hapart : ∀ a ∈ pre, ¬ a.Overlaps e) :
    e.InRange (pre.foldl grown n) ↔ e.InRange n ∨ e.Straddles n (insertedAt e.lo pre) := by
  obtain ⟨hpre, -, hlast⟩ := List.pairwise_append.mp hsorted
  have hle : ∀ a ∈ pre, e.lo ≤ a.lo := fun a ha => hlast a ha e (List.mem_singleton_self e)
  by_cases he : e.lo ≤ e.hi
  · by_cases hin : e.hi ≤ n
    · have hfits := le_grown_foldl hle (fun a ha => hapart a (mem_of_turns ha)) hin
      exact ⟨fun _ => .inl ⟨he, hin⟩, fun _ => ⟨he, hfits⟩⟩
    · by_cases hlo : e.lo ≤ n
      · rw [grown_foldl_straddle hlo (by omega) hpre hle hapart]
        unfold Edit.InRange Edit.Straddles
        omega
      · -- everything before begins past the end as well
        rw [grown_foldl_outside fun a ha => by
          have := hle a ha
          omega]
        unfold Edit.InRange Edit.Straddles
        omega
  · unfold Edit.InRange Edit.Straddles
    omega

/-! ## §4. Edits that may overlap. -/

/-- What an edit does at least to the length before the edits at `p` have had
their turns, or the first of them: those that begin there may only take away. -/
def share (n : Nat) (es : List (Edit α)) (p : Nat) (a : Edit α) : Int :=
  if a.InRange n then
    if p < a.lo then a.gain else if a.lo = p then min 0 a.gain else 0
  else if a.Straddles n (insertedAt a.lo es) ∧ p ≤ a.lo then min 0 a.gain
  else 0

/-- The least that is left of a list of `n` elements where the edits at `p` have
their turns. -/
def room (n : Nat) (es : List (Edit α)) (p : Nat) : Int := n + (es.map (share n es p)).sum

/-- Where the edit needs the list to reach, its own cut not counted. -/
def Edit.reach (e : Edit α) : Nat := min e.hi (e.lo + e.text.length)

theorem reach_eq (e : Edit α) : (e.reach : Int) = e.hi + min 0 e.gain := by
  unfold Edit.reach Edit.gain
  omega

theorem room_perm {n p : Nat} {es fs : List (Edit α)} (h : es.Perm fs) : room n es p = room n fs p := by
  have hshare : share n es p = share n fs p := by
    funext a
    rw [share, share, insertedAt_perm h]
  rw [room, room, hshare, (h.map _).sum_eq]

/-- The edits up to one at `p`, and those behind it, at most take away. -/
theorem room_le {n p : Nat} {pre post : List (Edit α)} {e : Edit α} (hp : e.lo = p)
    (he : e.InRange n) (hpost : ∀ a ∈ post, a.lo ≤ p) :
    room n (pre ++ e :: post) p
      ≤ n + (pre.map (share n (pre ++ e :: post) p)).sum + min 0 e.gain := by
  have hrest : (post.map (share n (pre ++ e :: post) p)).sum ≤ 0 := by
    have hsum : (post.map (share n (pre ++ e :: post) p)).sum ≤ (post.map fun _ => (0 : Int)).sum := by
      refine List.sum_le_sum fun a ha => ?_
      have := hpost a ha
      rw [share]
      split
      · rw [if_neg (by omega)]
        split
        · exact min_le_left _ _
        · exact le_refl _
      · split
        · exact min_le_left _ _
        · exact le_refl _
    simpa using hsum
  have hhere : share n (pre ++ e :: post) p e = min 0 e.gain := by
    rw [share, if_pos he, if_neg (by omega), if_pos hp]
  rw [room, List.map_append, List.map_cons, List.sum_append, List.sum_cons, hhere]
  omega

theorem turns_total {n : Nat} {es : List (Edit α)} {e : Edit α} (h : e ∈ es) :
    (e, true) ∈ turns n es ∨ (e, false) ∈ turns n es := by
  obtain ⟨pre, post, hsplit⟩ := List.append_of_mem h
  by_cases hfits : e.InRange (pre.foldl grown n)
  · exact .inl (mem_turns.mpr ⟨pre, post, hsplit, (decide_eq_true hfits).symm⟩)
  · exact .inr (mem_turns.mpr ⟨pre, post, hsplit, (decide_eq_false hfits).symm⟩)

/-- The turn went as it should: an edit of the original list is spliced, and any
other only if it straddles the end and insertions among `es` make room. -/
def Settled (n : Nat) (es : List (Edit α)) (e : Edit α) (b : Bool) : Prop :=
  (e.InRange n → b = true) ∧ (b = true → e.InRange n ∨ e.Straddles n (insertedAt e.lo es))

/-- **Room lemma**: after turns that went as they should, an edit of the original
list that needs no more than the room at its start is in range. -/
theorem le_of_reach_le_room {n : Nat} {es pre post : List (Edit α)} {e : Edit α}
    (hperm : es.Perm (pre ++ e :: post)) (hle : ∀ a ∈ pre, e.lo ≤ a.lo)
    (hpost : ∀ a ∈ post, a.lo ≤ e.lo) (hsettled : ∀ a b, (a, b) ∈ turns n pre → Settled n es a b)
    (he : e.InRange n) (hroom : (e.reach : Int) ≤ room n es e.lo) : e.hi ≤ pre.foldl grown n := by
  have hlow : n + (pre.map (share n es e.lo)).sum ≤ ((pre.foldl grown n : Nat) : Int) := by
    refine le_foldl_grown (share n es e.lo) fun a b hab => ?_
    obtain ⟨hin, hout⟩ := hsettled a b hab
    have hea := hle a (mem_of_turns hab)
    rw [share]
    by_cases ha : a.InRange n
    · rw [if_pos ha, hin ha, if_pos rfl]
      split
      · exact le_refl _
      · rw [if_pos (by omega)]
        exact min_le_right _ _
    · rw [if_neg ha]
      cases b with
      | true =>
          rw [if_pos ⟨(hout rfl).resolve_left ha, hea⟩, if_pos rfl]
          exact min_le_right _ _
      | false =>
          rw [if_neg Bool.false_ne_true]
          split
          · exact min_le_left _ _
          · exact le_refl _
  have hshare : share n (pre ++ e :: post) e.lo = share n es e.lo := by
    funext a
    rw [share, share, insertedAt_perm hperm]
  have hle' : room n (pre ++ e :: post) e.lo ≤ _ := room_le rfl he hpost
  rw [← room_perm hperm, hshare] at hle'
  have hreach := reach_eq e
  omega

/-- After turns that went as they should, an edit that nothing spliced overlaps
is in range only as it should be. -/
theorem straddles_of_turn {n : Nat} {es pre : List (Edit α)} {e : Edit α}
    (hle : ∀ a ∈ pre, e.lo ≤ a.lo) (hsettled : ∀ a b, (a, b) ∈ turns n pre → Settled n es a b)
    (hapart : ∀ a, (a, true) ∈ turns n pre → ¬ a.Overlaps e)
    (hfits : e.InRange (pre.foldl grown n)) :
    e.InRange n ∨ e.Straddles n (insertedAt e.lo pre) := by
  obtain ⟨he, hhi⟩ := hfits
  by_cases hin : e.hi ≤ n
  · exact .inl ⟨he, hin⟩
  by_cases hlo : e.lo ≤ n
  · refine .inr ⟨hlo, by omega, ?_⟩
    have hgrown := foldl_grown_le (n := n) (by omega) hle fun a ha => by
      refine ⟨?_, hapart a ha⟩
      rcases (hsettled a true ha).2 rfl with hr | hs
      · exact Nat.le_trans hr.1 hr.2
      · exact hs.1
    omega
  · -- everything before begins past the end as well
    rw [grown_foldl_outside fun a ha => by
      have := hle a ha
      omega] at hhi
    omega

/-! ## §5. The least favourable order. -/

/-- Splicing the edit takes something away. -/
def Edit.Shrinks (e : Edit α) : Prop := e.lo + e.text.length < e.hi

/-- `a` may stand before `b`: descending `lo`; then what shrinks, short texts
first; then the rest, far ends first. -/
def Tightest (a b : Edit α) : Prop :=
  b.lo < a.lo ∨ (a.lo = b.lo ∧
    ((a.Shrinks ∧ (b.Shrinks → a.text.length ≤ b.text.length))
      ∨ (¬ a.Shrinks ∧ ¬ b.Shrinks ∧ b.hi ≤ a.hi)))

/-- Every edit is spliced that lies in the original list, and no other. -/
def Exact (n : Nat) (es : List (Edit α)) : Prop :=
  ∀ a b, (a, b) ∈ turns n es → b = decide (a.InRange n)

/-- If what begins at `p` and shrinks stands before a place of the list, and what
begins there and does not shrink behind it, the length at that place is the room. -/
theorem room_eq {n p : Nat} {pre rest : List (Edit α)}
    (hno : ∀ a ∈ pre ++ rest, a.lo ≤ n → a.hi ≤ n) (hexact : Exact n (pre ++ rest))
    (hpre : ∀ a ∈ pre, a.InRange n → p < a.lo ∨ (a.lo = p ∧ a.Shrinks))
    (hrest : ∀ a ∈ rest, a.InRange n → a.lo < p ∨ (a.lo = p ∧ ¬ a.Shrinks)) :
    room n (pre ++ rest) p = ((pre.foldl grown n : Nat) : Int) := by
  have hout : ∀ a ∈ pre ++ rest, ¬ a.InRange n → share n (pre ++ rest) p a = 0 := by
    intro a ha hin
    rw [share, if_neg hin, if_neg]
    rintro ⟨⟨hlo, hhi, -⟩, -⟩
    have := hno a ha hlo
    omega
  have hzero : (rest.map (share n (pre ++ rest) p)).sum = 0 := by
    refine List.sum_eq_zero fun x hx => ?_
    obtain ⟨a, ha, rfl⟩ := List.mem_map.mp hx
    by_cases hin : a.InRange n
    · rw [share, if_pos hin]
      rcases hrest a ha hin with hlt | ⟨heq, hgain⟩
      · rw [if_neg (by omega), if_neg (by omega)]
      · rw [if_neg (by omega), if_pos heq]
        unfold Edit.Shrinks at hgain
        unfold Edit.gain
        omega
    · exact hout a (List.mem_append_right _ ha) hin
  have hsum : (pre.map (share n (pre ++ rest) p)).sum
      = ((turns n pre).map fun t => if t.2 then t.1.gain else 0).sum := by
    rw [← map_fst_turns pre n, List.map_map, map_fst_turns]
    refine congrArg List.sum (List.map_congr_left ?_)
    rintro ⟨a, b⟩ hab
    have ha := mem_of_turns hab
    have hb : b = decide (a.InRange n) :=
      hexact a b (by rw [turns_append]; exact List.mem_append_left _ hab)
    show share n (pre ++ rest) p a = if b then a.gain else 0
    by_cases hin : a.InRange n
    · rw [hb, decide_eq_true hin, if_pos rfl, share, if_pos hin]
      rcases hpre a ha hin with hlt | ⟨heq, hgain⟩
      · rw [if_pos hlt]
      · rw [if_neg (by omega), if_pos heq]
        unfold Edit.Shrinks at hgain
        unfold Edit.gain
        omega
    · rw [hb, decide_eq_false hin, hout a (List.mem_append_left _ ha) hin]
      rfl
  rw [room, List.map_append, List.sum_append, hzero, hsum, foldl_grown_eq]
  omega

/-- Where every edit of the original list is spliced it is in range at its turn. -/
theorem Exact.inRange {n : Nat} {pre post : List (Edit α)} {a : Edit α} (hexact : Exact n (pre ++ a :: post))
    (ha : a.InRange n) : a.InRange (pre.foldl grown n) := by
  have := hexact a _ (mem_turns.mpr ⟨pre, post, rfl, rfl⟩)
  rw [decide_eq_true ha] at this
  exact of_decide_eq_true this

section Room

variable {n : Nat} {es : List (Edit α)} (hsorted : es.Pairwise Tightest) (hno : ∀ a ∈ es, a.lo ≤ n → a.hi ≤ n)
  (hexact : Exact n es) {e : Edit α} (he : e ∈ es) (hin : e.InRange n)

include hsorted hno hexact he hin

/-- The last edit at a place that shrinks has the longest text. -/
theorem reach_le_room_of_shrinks (hshrinks : e.Shrinks) : (e.reach : Int) ≤ room n es e.lo := by
  classical
  obtain ⟨pre, a, post, rfl, ⟨halo, ha, hashrinks⟩, hlast⟩ :=
    exists_last (p := fun a => a.lo = e.lo ∧ a.InRange n ∧ a.Shrinks) es ⟨e, he, rfl, hin, hshrinks⟩
  obtain ⟨-, hrest, hcross⟩ := List.pairwise_append.mp hsorted
  obtain ⟨hpost, -⟩ := List.pairwise_cons.mp hrest
  have hfits := hexact.inRange ha
  have hsplit : pre ++ a :: post = (pre ++ [a]) ++ post := by simp
  have hroom : room n (pre ++ a :: post) e.lo = (((pre ++ [a]).foldl grown n : Nat) : Int) := by
    rw [hsplit] at hno hexact ⊢
    refine room_eq hno hexact ?_ ?_
    · intro b hb hbin
      rcases List.mem_append.mp hb with hb | hb
      · have hba := hcross b hb a (List.mem_cons_self ..)
        unfold Tightest at hba
        by_cases hlt : e.lo < b.lo
        · exact .inl hlt
        · exact .inr ⟨by omega, by
            by_contra hno
            rcases hba with hlt | ⟨-, ⟨hyes, -⟩ | ⟨-, hnot, -⟩⟩
            · omega
            · exact hno hyes
            · exact hnot hashrinks⟩
      · cases List.mem_singleton.mp hb
        exact .inr ⟨halo, hashrinks⟩
    · intro b hb hbin
      have hab := hpost b hb
      unfold Tightest at hab
      by_cases hlt : b.lo < e.lo
      · exact .inl hlt
      · have heq : b.lo = e.lo := by omega
        exact .inr ⟨heq, fun hyes => hlast b hb ⟨heq, hbin, hyes⟩⟩
  have htext : e.text.length ≤ a.text.length := by
    rcases List.mem_append.mp he with he | he
    · rcases hcross e he a (List.mem_cons_self ..) with hlt | ⟨-, ⟨-, hlen⟩ | ⟨hnot, -⟩⟩
      · omega
      · exact hlen hashrinks
      · exact absurd hshrinks hnot
    · rcases List.mem_cons.mp he with rfl | he
      · exact Nat.le_refl _
      · exact absurd ⟨rfl, hin, hshrinks⟩ (hlast e he)
  rw [hroom, List.foldl_append, List.foldl_cons, List.foldl_nil, grown, if_pos hfits]
  unfold Edit.reach
  omega

/-- The first edit at a place that does not shrink has the farthest end. -/
theorem reach_le_room_of_grows (hgrows : ¬ e.Shrinks) : (e.reach : Int) ≤ room n es e.lo := by
  classical
  obtain ⟨a, hfind⟩ : ∃ a, es.find? (fun a => decide (a.lo = e.lo ∧ a.InRange n ∧ ¬ a.Shrinks)) = some a := by
    rw [← Option.isSome_iff_exists, List.find?_isSome]
    exact ⟨e, he, decide_eq_true ⟨rfl, hin, hgrows⟩⟩
  obtain ⟨hp, pre, post, rfl, hfirst⟩ := List.find?_eq_some_iff_append.mp hfind
  obtain ⟨halo, ha, hanot⟩ := of_decide_eq_true hp
  obtain ⟨-, hrest, hcross⟩ := List.pairwise_append.mp hsorted
  obtain ⟨hpost, -⟩ := List.pairwise_cons.mp hrest
  have hfirst' : ∀ b ∈ pre, b.lo = e.lo → b.InRange n → b.Shrinks := by
    intro b hb heq hbin
    by_contra hno
    have := hfirst b hb
    simp [heq, hbin, hno] at this
  have hroom : room n (pre ++ a :: post) e.lo = ((pre.foldl grown n : Nat) : Int) := by
    refine room_eq hno hexact ?_ ?_
    · intro b hb hbin
      have hba := hcross b hb a (List.mem_cons_self ..)
      unfold Tightest at hba
      by_cases hlt : e.lo < b.lo
      · exact .inl hlt
      · have heq : b.lo = e.lo := by omega
        exact .inr ⟨heq, hfirst' b hb heq hbin⟩
    · intro b hb hbin
      rcases List.mem_cons.mp hb with rfl | hb
      · exact .inr ⟨halo, hanot⟩
      · rcases hpost b hb with hlt | ⟨heq, ⟨hyes, -⟩ | ⟨-, hnot, -⟩⟩
        · exact .inl (by omega)
        · exact absurd hyes hanot
        · exact .inr ⟨by omega, hnot⟩
  have hhi : e.hi ≤ a.hi := by
    rcases List.mem_append.mp he with he | he
    · exact absurd (hfirst' e he rfl hin) hgrows
    · rcases List.mem_cons.mp he with rfl | he
      · exact Nat.le_refl _
      · rcases hpost e he with hlt | ⟨-, ⟨hyes, -⟩ | ⟨-, -, hhi⟩⟩
        · omega
        · exact absurd hyes hanot
        · exact hhi
  have := (hexact.inRange ha).2
  rw [hroom]
  unfold Edit.reach
  omega

/-- In the least favourable order, where every edit of the original list is
spliced and no other, no edit needs more than the room at its start. -/
theorem reach_le_room : (e.reach : Int) ≤ room n es e.lo := by
  by_cases hshrinks : e.Shrinks
  · exact reach_le_room_of_shrinks hsorted hno hexact he hin hshrinks
  · exact reach_le_room_of_grows hsorted hno hexact he hin hshrinks

end Room

end Splice
