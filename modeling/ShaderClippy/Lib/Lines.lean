/-
  ShaderClippy.Lib.Lines

  **LINES, POSITIONS AND EDITS OF A TEXT.**

  Texts over any alphabet with one symbol that ends a line. A text is read in
  two ways, and both are connected here:

    • as whole lines followed by an unfinished one (`wholeLines`, `lastLine`),
      which is what an offset into the text sees to its left;
    • as a `Buffer`, the list of its lines, with positions (line, character)
      and replacement between two positions, which is what an editor sees.
-/
import Mathlib.Data.List.DropRight
import Mathlib.Data.List.Basic

namespace ShaderClippy.Lines

variable {α : Type} [DecidableEq α] (nl : α)

/-! ## §1. Whole lines and the unfinished one. -/

/-- Nothing, or a text that ends with a line break. -/
def Whole (t : List α) : Prop := t = [] ∨ ∃ s, t = s ++ [nl]

/-- The text after the last line break. -/
def lastLine (t : List α) : List α := t.rtakeWhile fun c => decide (c ≠ nl)

/-- The text up to and with the last line break. -/
def wholeLines (t : List α) : List α := t.rdropWhile fun c => decide (c ≠ nl)

theorem wholeLines_append_lastLine (t : List α) : wholeLines nl t ++ lastLine nl t = t :=
  List.rdropWhile_append_rtakeWhile

theorem not_mem_lastLine (t : List α) : nl ∉ lastLine nl t := by
  intro h
  have hne := List.mem_rtakeWhile_imp h
  simp at hne

theorem whole_wholeLines (t : List α) : Whole nl (wholeLines nl t) := by
  by_cases h : wholeLines nl t = []
  · exact Or.inl h
  · right
    have hlast := List.rdropWhile_last_not (fun c => decide (c ≠ nl)) t h
    have hnl : (wholeLines nl t).getLast h = nl := by simpa [wholeLines] using hlast
    have hsplit := List.dropLast_concat_getLast h
    rw [hnl] at hsplit
    exact ⟨_, hsplit.symm⟩

theorem count_wholeLines (t : List α) : (wholeLines nl t).count nl = t.count nl := by
  have h : ((wholeLines nl t) ++ lastLine nl t).count nl = t.count nl := by
    rw [wholeLines_append_lastLine]
  rw [List.count_append, List.count_eq_zero_of_not_mem (not_mem_lastLine nl t)] at h
  exact h

theorem length_wholeLines (t : List α) :
    (wholeLines nl t).length + (lastLine nl t).length = t.length := by
  have h := congrArg List.length (wholeLines_append_lastLine nl t)
  rwa [List.length_append] at h

/-- A line that goes on: only the unfinished line gets longer. -/
theorem lastLine_append {t s : List α} (hs : nl ∉ s) :
    lastLine nl (t ++ s) = lastLine nl t ++ s := by
  induction s using List.reverseRecOn with
  | nil => simp
  | append_singleton s c ih =>
      rw [List.mem_append, not_or] at hs
      have hc : c ≠ nl := fun h => hs.2 (by simp [h])
      rw [← List.append_assoc, lastLine, List.rtakeWhile_concat_pos _ _ _ (by simpa using hc)]
      have htail : List.rtakeWhile (fun c => decide (c ≠ nl)) (t ++ s) = lastLine nl t ++ s :=
        ih hs.1
      rw [htail, List.append_assoc]

/-! ## §2. Buffers: the lines of a text. -/

/-- Put the lines back together. -/
def join : List (List α) → List α
  | [] => []
  | [l] => l
  | l :: ls => l ++ nl :: join ls

/-- The lines of a text: one more than it has line breaks. -/
def split : List α → List (List α)
  | [] => [[]]
  | c :: cs =>
      if c = nl then [] :: split cs
      else
        match split cs with
        | [] => [[c]]
        | l :: ls => (c :: l) :: ls

theorem split_ne_nil (t : List α) : split nl t ≠ [] := by
  cases t with
  | nil => simp [split]
  | cons c cs =>
      rw [split]
      split
      · simp
      · split <;> simp

theorem unbroken_split (t : List α) : ∀ l ∈ split nl t, nl ∉ l := by
  induction t with
  | nil => simp [split]
  | cons c cs ih =>
      by_cases hc : c = nl
      · simpa [split, hc] using ih
      · cases hs : split nl cs with
        | nil => exact absurd hs (split_ne_nil nl cs)
        | cons l ls =>
            rw [hs] at ih
            have hl := ih l (List.mem_cons_self ..)
            intro x hx
            simp only [split, hc, if_false, hs, List.mem_cons] at hx
            rcases hx with rfl | hx
            · simp [hl, Ne.symm hc]
            · exact ih x (List.mem_cons_of_mem _ hx)

theorem join_split (t : List α) : join nl (split nl t) = t := by
  induction t with
  | nil => rfl
  | cons c cs ih =>
      cases hs : split nl cs with
      | nil => exact absurd hs (split_ne_nil nl cs)
      | cons l ls =>
          rw [hs] at ih
          by_cases hc : c = nl
          · rw [split, if_pos hc, hs, join, ih, hc]
            · rfl
            · simp
          · rw [split, if_neg hc, hs]
            cases ls with
            | nil => simpa [join] using ih
            | cons l' ls => simpa [join] using ih

omit [DecidableEq α] in
theorem length_le_join {ls : List (List α)} : ∀ l ∈ ls, l.length ≤ (join nl ls).length := by
  induction ls with
  | nil => exact nofun
  | cons k ks ih =>
      intro l hl
      cases ks with
      | nil =>
          rw [List.mem_singleton.mp hl]
          exact Nat.le_refl _
      | cons k' ks =>
          rw [join, List.length_append, List.length_cons]
          · obtain rfl | hl := List.mem_cons.mp hl
            · omega
            · have := ih l hl
              omega
          · simp

/-- A line is not longer than the text. -/
theorem length_le_of_mem_split {t l : List α} (h : l ∈ split nl t) : l.length ≤ t.length := by
  have hle := length_le_join nl l h
  rwa [join_split] at hle

theorem split_of_unbroken {t : List α} (h : nl ∉ t) : split nl t = [t] := by
  induction t with
  | nil => rfl
  | cons c cs ih =>
      have hc : ¬ c = nl := fun heq => h (heq ▸ List.mem_cons_self ..)
      rw [split, if_neg hc, ih fun hmem => h (List.mem_cons_of_mem _ hmem)]

/-- A line break separates the lines before it from the lines after it. -/
theorem split_append_break (s t : List α) : split nl (s ++ nl :: t) = split nl s ++ split nl t := by
  induction s with
  | nil => simp [split]
  | cons c cs ih =>
      by_cases hc : c = nl
      · simp [split, hc, ih]
      · rw [List.cons_append, split, if_neg hc, ih, split, if_neg hc]
        cases hs : split nl cs with
        | nil => exact absurd hs (split_ne_nil nl cs)
        | cons l ls => rfl

/-- A text put before another one ends in the first line of it. -/
theorem split_append_first {t l : List α} {ls : List (List α)} (s : List α)
    (h : split nl t = l :: ls) : ∃ front w, split nl (s ++ t) = front ++ (w ++ l) :: ls ∧ nl ∉ w := by
  induction s with
  | nil => exact ⟨[], [], h, by simp⟩
  | cons c cs ih =>
      have ⟨front, w, hsplit, hw⟩ := ih
      by_cases hc : c = nl
      · exact ⟨[] :: front, w, by rw [List.cons_append, split, if_pos hc, hsplit]; rfl, hw⟩
      · rw [List.cons_append, split, if_neg hc, hsplit]
        cases front with
        | nil => exact ⟨[], c :: w, rfl, by simp [Ne.symm hc, hw]⟩
        | cons f fs => exact ⟨(c :: f) :: fs, w, rfl, hw⟩

omit [DecidableEq α] in
theorem join_cons (l : List α) {ls : List (List α)} (h : ls ≠ []) :
    join nl (l :: ls) = l ++ nl :: join nl ls := by
  cases ls with
  | nil => exact absurd rfl h
  | cons x xs => rfl

omit [DecidableEq α] in
theorem join_append_break {ls ms : List (List α)} (hls : ls ≠ []) (hms : ms ≠ []) :
    join nl (ls ++ ms) = join nl ls ++ nl :: join nl ms := by
  induction ls with
  | nil => exact absurd rfl hls
  | cons l ls ih =>
      by_cases hnil : ls = []
      · subst hnil
        exact join_cons nl l hms
      · rw [List.cons_append, join_cons nl l (List.append_ne_nil_of_left_ne_nil hnil ms), ih hnil,
          join_cons nl l hnil, List.append_assoc, List.cons_append]

theorem split_join {ls : List (List α)} (hne : ls ≠ []) (h : ∀ l ∈ ls, nl ∉ l) :
    split nl (join nl ls) = ls := by
  induction ls with
  | nil => exact absurd rfl hne
  | cons l ls ih =>
      have hl := split_of_unbroken nl (h l (List.mem_cons_self ..))
      by_cases hnil : ls = []
      · subst hnil
        exact hl
      · rw [join_cons nl l hnil, split_append_break, hl,
          ih hnil fun x hx => h x (List.mem_cons_of_mem _ hx)]
        rfl

/-- The lines of pieces that are joined. -/
theorem split_join_pieces {ps : List (List α)} (hne : ps ≠ []) :
    split nl (join nl ps) = ps.flatMap (split nl) := by
  induction ps with
  | nil => exact absurd rfl hne
  | cons p ps ih =>
      by_cases hnil : ps = []
      · subst hnil
        exact (List.append_nil _).symm
      · rw [join_cons nl p hnil, split_append_break, ih hnil, List.flatMap_cons]

/-- Where the lines are taken apart there is a line break. -/
theorem split_eq_append {t : List α} {ls ms : List (List α)} (hls : ls ≠ []) (hms : ms ≠ [])
    (h : split nl t = ls ++ ms) : ∃ u v, t = u ++ nl :: v ∧ split nl u = ls ∧ split nl v = ms := by
  have hunbroken := unbroken_split nl t
  rw [h] at hunbroken
  refine ⟨join nl ls, join nl ms, ?_,
    split_join nl hls fun l hl => hunbroken l (List.mem_append_left _ hl),
    split_join nl hms fun l hl => hunbroken l (List.mem_append_right _ hl)⟩
  rw [← join_append_break nl hls hms, ← h, join_split]

omit [DecidableEq α] in
/-- The lines before a line, each with its break, and the rest. -/
theorem join_append {xs ys : List (List α)} (hys : ys ≠ []) :
    join nl (xs ++ ys) = xs.flatMap (fun l => l ++ [nl]) ++ join nl ys := by
  induction xs with
  | nil => rfl
  | cons l xs ih =>
      rw [List.cons_append, join_cons nl l (List.append_ne_nil_of_right_ne_nil xs hys), ih]
      simp

omit [DecidableEq α] in
theorem join_cons_append (a b : List α) (ls : List (List α)) :
    join nl ((a ++ b) :: ls) = a ++ join nl (b :: ls) := by
  cases ls with
  | nil => rfl
  | cons l ls => simp [join]

/-- A text as an editor holds it: a list of lines, none of them broken. -/
structure Buffer where
  lines : List (List α)
  some_line : lines ≠ []
  unbroken : ∀ l ∈ lines, nl ∉ l

/-- Zero-based line and character. -/
structure Position where
  line : Nat
  character : Nat
  deriving Repr, DecidableEq

/-- Earlier in the text, or the same place. -/
def Position.Le (p q : Position) : Prop :=
  p.line < q.line ∨ (p.line = q.line ∧ p.character ≤ q.character)

namespace Buffer

variable {nl}

def text (b : Buffer nl) : List α := join nl b.lines

def ofText (nl : α) (t : List α) : Buffer nl :=
  ⟨split nl t, split_ne_nil nl t, unbroken_split nl t⟩

@[simp] theorem text_ofText (t : List α) : (ofText nl t).text = t := join_split nl t

/-- The line exists and is at least that long. -/
def Valid (b : Buffer nl) (p : Position) : Prop :=
  ∃ l, b.lines[p.line]? = some l ∧ p.character ≤ l.length

/-- The text to the left of a position. -/
def before (b : Buffer nl) (p : Position) : List α :=
  (b.lines.take p.line).flatMap (fun l => l ++ [nl]) ++ (b.lines.getD p.line []).take p.character

/-- The text to the right of a position. -/
def after (b : Buffer nl) (p : Position) : List α :=
  join nl ((b.lines.getD p.line []).drop p.character :: b.lines.drop (p.line + 1))

/-- Replace what lies between two positions. -/
def replace (b : Buffer nl) (start stop : Position) (new : List α) : Buffer nl :=
  ofText nl (b.before start ++ new ++ b.after stop)

@[simp] theorem text_replace (b : Buffer nl) (start stop : Position) (new : List α) :
    (b.replace start stop new).text = b.before start ++ new ++ b.after stop := text_ofText _

omit [DecidableEq α] in
/-- A valid position cuts the text in two. -/
theorem before_append_after {b : Buffer nl} {p : Position} (h : b.Valid p) :
    b.before p ++ b.after p = b.text := by
  have ⟨l, hl, _⟩ := h
  have hlt : p.line < b.lines.length := (List.getElem?_eq_some_iff.mp hl).1
  have hget : b.lines.getD p.line [] = l := by simp [List.getD, hl]
  have hdrop : b.lines.drop p.line = l :: b.lines.drop (p.line + 1) := by
    rw [List.drop_eq_getElem_cons hlt]
    have := List.getElem?_eq_getElem hlt
    rw [hl] at this
    cases this
    rfl
  have hjoin : b.text = (b.lines.take p.line).flatMap (fun l => l ++ [nl])
      ++ join nl (l :: b.lines.drop (p.line + 1)) := by
    rw [← hdrop, ← join_append nl (by rw [hdrop]; simp), List.take_append_drop]
    rfl
  rw [hjoin, before, after, hget, List.append_assoc, ← join_cons_append, List.take_append_drop]

omit [DecidableEq α] in
theorem whole_flatMap (ls : List (List α)) : Whole nl (ls.flatMap fun l => l ++ [nl]) := by
  induction ls using List.reverseRecOn with
  | nil => exact Or.inl rfl
  | append_singleton ls l _ =>
      exact Or.inr ⟨ls.flatMap (fun l => l ++ [nl]) ++ l, by simp⟩

theorem count_flatMap {ls : List (List α)} (h : ∀ l ∈ ls, nl ∉ l) :
    (ls.flatMap fun l => l ++ [nl]).count nl = ls.length := by
  induction ls with
  | nil => rfl
  | cons l ls ih =>
      have hl := List.count_eq_zero_of_not_mem (h l (List.mem_cons_self ..))
      have htail := ih fun x hx => h x (List.mem_cons_of_mem _ hx)
      simp [hl, htail]

/-- What lies to the left of a valid position: as many whole lines as the
position says, then as many symbols of one line. -/
theorem before_spec {b : Buffer nl} {p : Position} (h : b.Valid p) :
    ∃ w s, b.before p = w ++ s ∧ Whole nl w ∧ w.count nl = p.line ∧ nl ∉ s
      ∧ s.length = p.character := by
  have ⟨l, hl, hlen⟩ := h
  have hlt : p.line < b.lines.length := (List.getElem?_eq_some_iff.mp hl).1
  have hget : b.lines.getD p.line [] = l := by simp [List.getD, hl]
  refine ⟨_, _, rfl, whole_flatMap _, ?_, ?_, ?_⟩
  · rw [count_flatMap fun x hx => b.unbroken x (List.mem_of_mem_take hx), List.length_take]
    omega
  · rw [hget]
    intro hmem
    exact b.unbroken l (List.mem_of_getElem? hl) (List.mem_of_mem_take hmem)
  · rw [hget, List.length_take]
    omega

omit [DecidableEq α] in
theorem length_before_le {b : Buffer nl} {p q : Position} (hp : b.Valid p) (hq : b.Valid q)
    (h : p.Le q) : (b.before p).length ≤ (b.before q).length := by
  have ⟨l, hl, hlen⟩ := hp
  have ⟨m, hm, hmen⟩ := hq
  have hlt : p.line < b.lines.length := (List.getElem?_eq_some_iff.mp hl).1
  have hget : b.lines.getD p.line [] = l := by simp [List.getD, hl]
  rcases h with hline | ⟨hline, hchar⟩
  · -- the whole line of `p` is to the left of `q`
    have hsub : List.IsPrefix (b.lines.take p.line ++ [l]) (b.lines.take q.line) := by
      have hstep : b.lines.take p.line ++ [l] = b.lines.take (p.line + 1) := by
        rw [List.take_add_one, hl]
        rfl
      rw [hstep]
      exact List.take_prefix_take_left (by omega)
    have ⟨r, hr⟩ := hsub
    rw [before, before, ← hr, hget]
    simp only [List.flatMap_append, List.flatMap_cons, List.flatMap_nil, List.length_append,
      List.append_nil, List.length_take, List.length_cons, List.length_nil]
    omega
  · rw [before, before, ← hline, hget]
    simp only [List.length_append, List.length_take]
    omega

end Buffer

end ShaderClippy.Lines
