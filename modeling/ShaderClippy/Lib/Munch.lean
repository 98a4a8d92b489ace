/-
  ShaderClippy.Lib.Munch

  **MAXIMAL MUNCH.**

  A lossless tokeniser over any alphabet: a token is grown symbol by symbol
  as long as the rules let it grow, and every token keeps the blank symbols in
  front of it, so that the input can be rebuilt from the tokens.

    • `lex`      the tokeniser, fuelled by the length of the input;
    • `LexOK`    what a list of tokens must satisfy to come out unchanged: the
                 tokens are tokens, and none of them would grow into the next;
    • `lex_iff`  the two agree: `lex s` is `some (ts, trail)` exactly when `ts`
                 is `LexOK` and `s` is the text of `ts` followed by `trail`.
-/
import Mathlib.Data.List.TakeWhile

namespace ShaderClippy.Munch

variable {α : Type}

/-! ## §1. The tokeniser. -/

/-- A token: the blanks in front of it and its own symbols. -/
structure Lexeme (α : Type) where
  lead : List α
  body : List α
  deriving Repr, DecidableEq

/-- When a symbol is a blank, and when a token may grow by one more symbol. -/
structure Rules (α : Type) where
  space : α → Bool
  grows : List α → α → Bool
  space_stops : ∀ cur c, space c = true → grows cur c = false

variable (R : Rules α)

/-- Grow `cur` as far as the input lets it. -/
def munch : List α → List α → List α × List α
  | cur, [] => (cur, [])
  | cur, c :: cs => if R.grows cur c then munch (cur ++ [c]) cs else (cur, c :: cs)

/-- Tokens of the input and the blanks after the last one. -/
def lexLoop : Nat → List α → Option (List (Lexeme α) × List α)
  | 0, _ => none
  | fuel + 1, input =>
      match input.dropWhile R.space with
      | [] => some ([], input)
      | c :: cs =>
          match munch R [] (c :: cs) with
          | ([], _) => none
          | (b :: body, rest) =>
              (lexLoop fuel rest).map fun r => (⟨input.takeWhile R.space, b :: body⟩ :: r.1, r.2)

def lex (input : List α) : Option (List (Lexeme α) × List α) := lexLoop R (input.length + 1) input

/-! ## §2. Texts of tokens. -/

def Lexeme.text (t : Lexeme α) : List α := t.lead ++ t.body

/-- The text of a list of tokens. -/
def render : List (Lexeme α) → List α
  | [] => []
  | t :: ts => t.text ++ render ts

@[simp] theorem render_nil : render ([] : List (Lexeme α)) = [] := rfl
@[simp] theorem render_cons (t : Lexeme α) (ts : List (Lexeme α)) :
    render (t :: ts) = t.text ++ render ts := rfl

@[simp] theorem render_append (ts us : List (Lexeme α)) :
    render (ts ++ us) = render ts ++ render us := by
  induction ts with
  | nil => rfl
  | cons t ts ih => simp [ih]

/-! ## §3. Lists of tokens that come out unchanged. -/

/-- `s` can be grown onto `cur` symbol by symbol. -/
def Grown : List α → List α → Prop
  | _, [] => True
  | cur, c :: cs => R.grows cur c = true ∧ Grown (cur ++ [c]) cs

/-- A token's symbols: at least one, each grown onto those before it. -/
def IsToken (body : List α) : Prop := body ≠ [] ∧ Grown R [] body

/-- A token ends in front of `rest`. -/
def Stops (body rest : List α) : Prop := ∀ c, rest.head? = some c → R.grows body c = false

/-- The tokens come out of their own text unchanged. -/
def LexOK : List (Lexeme α) → Prop
  | [] => True
  | t :: ts =>
      (∀ c ∈ t.lead, R.space c = true) ∧ IsToken R t.body ∧ Stops R t.body (render ts) ∧ LexOK ts

variable {R}

theorem stops_nil (body : List α) : Stops R body [] := by
  intro c hc
  simp at hc

theorem stops_cons {body : List α} {c : α} {cs : List α} :
    Stops R body (c :: cs) ↔ R.grows body c = false := by
  simp [Stops]

/-- Only the next symbol counts. -/
theorem stops_append {body s rest : List α} (hs : s ≠ []) :
    Stops R body (s ++ rest) ↔ Stops R body s := by
  cases s with
  | nil => exact absurd rfl hs
  | cons c cs => simp only [List.cons_append, stops_cons]

/-- A blank ends every token. -/
theorem stops_blank {body s rest : List α} (hs : s ≠ []) (hb : ∀ c ∈ s, R.space c = true) :
    Stops R body (s ++ rest) := by
  rw [stops_append hs]
  intro c hc
  exact R.space_stops body c (hb c (List.mem_of_mem_head? hc))

theorem isToken_head {body : List α} (h : IsToken R body) :
    ∃ c cs, body = c :: cs ∧ R.grows [] c = true := by
  cases body with
  | nil => exact absurd rfl h.1
  | cons c cs => exact ⟨c, cs, rfl, h.2.1⟩

/-- A token does not begin with a blank. -/
theorem not_space_of_grows {cur : List α} {c : α} (h : R.grows cur c = true) :
    R.space c = false := by
  by_contra hc
  have hstop := R.space_stops cur c (by simpa using hc)
  rw [hstop] at h
  cases h

/-! ## §4. Growing, there and back. -/

theorem munch_grown {s : List α} :
    ∀ {cur rest : List α}, Grown R cur s → Stops R (cur ++ s) rest →
      munch R cur (s ++ rest) = (cur ++ s, rest) := by
  induction s with
  | nil =>
      intro cur rest _ hstop
      rw [List.append_nil] at hstop ⊢
      cases rest with
      | nil => rfl
      | cons c cs =>
          have hc := stops_cons.mp hstop
          show (if R.grows cur c then munch R (cur ++ [c]) cs else (cur, c :: cs)) = _
          rw [hc]
          rfl
  | cons c cs ih =>
      intro cur rest hg hstop
      show (if R.grows cur c then munch R (cur ++ [c]) (cs ++ rest)
        else (cur, c :: (cs ++ rest))) = _
      rw [if_pos hg.1, ih hg.2 (by simpa using hstop)]
      simp

theorem munch_spec (input : List α) :
    ∀ cur : List α, ∃ s, (munch R cur input).1 = cur ++ s ∧ input = s ++ (munch R cur input).2
      ∧ Grown R cur s ∧ Stops R (cur ++ s) (munch R cur input).2 := by
  induction input with
  | nil =>
      intro cur
      exact ⟨[], by simp [munch], by simp [munch], trivial, by simp [munch, stops_nil]⟩
  | cons c cs ih =>
      intro cur
      by_cases hc : R.grows cur c = true
      · have hm : munch R cur (c :: cs) = munch R (cur ++ [c]) cs := by rw [munch, if_pos hc]
        have ⟨s, h1, h2, h3, h4⟩ := ih (cur ++ [c])
        refine ⟨c :: s, ?_, ?_, ⟨hc, h3⟩, ?_⟩
        · rw [hm, h1]
          simp
        · rw [hm, List.cons_append, ← h2]
        · rw [hm]
          simpa using h4
      · have hm : munch R cur (c :: cs) = (cur, c :: cs) := by rw [munch, if_neg hc]
        refine ⟨[], ?_, ?_, trivial, ?_⟩
        · rw [hm, List.append_nil]
        · rw [hm]
          rfl
        · rw [hm, List.append_nil]
          exact stops_cons.mpr (by simpa using hc)

/-! ## §5. The tokeniser, there and back. -/

theorem takeWhile_blank {lead rest : List α} (hb : ∀ c ∈ lead, R.space c = true)
    (hr : ∀ c, rest.head? = some c → R.space c = false) :
    (lead ++ rest).takeWhile R.space = lead ∧ (lead ++ rest).dropWhile R.space = rest := by
  induction lead with
  | nil =>
      cases rest with
      | nil => simp
      | cons c cs => simp [hr c rfl]
  | cons c cs ih =>
      have hc := hb c (List.mem_cons_self ..)
      have htail := ih fun d hd => hb d (List.mem_cons_of_mem _ hd)
      simp [hc, htail]

/-- **The tokeniser finds what was printed**, given enough fuel. -/
theorem lexLoop_complete {ts : List (Lexeme α)} {trail : List α}
    (ht : ∀ c ∈ trail, R.space c = true) :
    ∀ {fuel : Nat}, LexOK R ts → ts.length < fuel →
      lexLoop R fuel (render ts ++ trail) = some (ts, trail) := by
  induction ts with
  | nil =>
      intro fuel _ hfuel
      cases fuel with
      | zero => omega
      | succ n =>
          have hdrop : trail.dropWhile R.space = [] := by
            have := @takeWhile_blank _ R _ [] ht (by simp)
            simpa using this.2
          show lexLoop R (n + 1) trail = _
          rw [lexLoop, hdrop]
  | cons t ts ih =>
      intro fuel hok hfuel
      have ⟨hlead, htok, hstop, hrest⟩ := hok
      cases fuel with
      | zero => omega
      | succ n =>
          have ⟨c, cs, hbody, hgrow⟩ := isToken_head htok
          have hnb : R.space c = false := not_space_of_grows hgrow
          have hsplit : render (t :: ts) ++ trail = t.lead ++ (t.body ++ (render ts ++ trail)) := by
            simp [Lexeme.text]
          have ⟨htake, hdrop⟩ := @takeWhile_blank _ R _ (t.body ++ (render ts ++ trail)) hlead
            (by rw [hbody]; simp [hnb])
          -- the token ends in front of the next one, or of the trailing blanks
          have hstop' : Stops R ([] ++ t.body) (render ts ++ trail) := by
            rw [List.nil_append]
            cases hr : render ts with
            | nil =>
                cases htr : trail with
                | nil => exact stops_nil _
                | cons d ds =>
                    rw [← htr, List.nil_append, ← List.append_nil trail]
                    exact stops_blank (by simp [htr]) ht
            | cons d ds =>
                rw [stops_append (by simp), ← hr]
                exact hstop
          have hmunch := munch_grown htok.2 hstop'
          rw [List.nil_append] at hmunch
          have hih := @ih n hrest (by simp at hfuel; omega)
          rw [hsplit, lexLoop, htake, hdrop, hbody, List.cons_append]
          rw [hbody, List.cons_append] at hmunch
          have hself : (⟨t.lead, c :: cs⟩ : Lexeme α) = t := by rw [← hbody]
          simp only [hmunch, hih, Option.map_some, hself]

/-- **What the tokeniser finds is what was printed.** -/
theorem lexLoop_sound :
    ∀ {fuel : Nat} {input : List α} {ts : List (Lexeme α)} {trail : List α},
      lexLoop R fuel input = some (ts, trail) →
        LexOK R ts ∧ (∀ c ∈ trail, R.space c = true) ∧ input = render ts ++ trail := by
  intro fuel
  induction fuel with
  | zero =>
      intro input ts trail h
      cases h
  | succ n ih =>
      intro input ts trail h
      have hsplit := List.takeWhile_append_dropWhile (p := R.space) (l := input)
      have hblank : ∀ c ∈ input.takeWhile R.space, R.space c = true :=
        fun c hc => List.mem_takeWhile_imp hc
      rw [lexLoop] at h
      cases hd : input.dropWhile R.space with
      | nil =>
          rw [hd] at h hsplit
          cases h
          rw [List.append_nil] at hsplit
          exact ⟨trivial, by rw [← hsplit]; exact hblank, rfl⟩
      | cons c cs =>
          rw [hd] at h hsplit
          have ⟨s, h1, h2, h3, h4⟩ := munch_spec (R := R) (c :: cs) []
          rw [List.nil_append] at h1 h4
          cases hm : munch R [] (c :: cs) with
          | mk body rest =>
              rw [hm] at h1 h2 h4
              have hbs : body = s := h1
              subst hbs
              cases body with
              | nil =>
                  simp only [hm] at h
                  cases h
              | cons b body =>
                  simp only [hm] at h
                  cases hl : lexLoop R n rest with
                  | none =>
                      rw [hl] at h
                      cases h
                  | some r =>
                      rw [hl] at h
                      cases h
                      have ⟨hok, htr, heq⟩ := @ih rest r.1 r.2 hl
                      refine ⟨⟨hblank, ⟨by simp, h3⟩, ?_, hok⟩, htr, ?_⟩
                      · -- what stops the token is the next token: `render` may be empty
                        cases hr : render r.1 with
                        | nil => exact stops_nil _
                        | cons d ds =>
                            have h4' : Stops R (b :: body) rest := h4
                            rw [heq, hr, stops_append (by simp)] at h4'
                            exact h4'
                      · have h2' : c :: cs = (b :: body) ++ rest := h2
                        rw [h2', heq] at hsplit
                        rw [render_cons, Lexeme.text, List.append_assoc, List.append_assoc, hsplit]

theorem length_le_render {ts : List (Lexeme α)} (h : LexOK R ts) :
    ts.length ≤ (render ts).length := by
  induction ts with
  | nil => simp
  | cons t ts ih =>
      have hbody : 0 < t.body.length := List.length_pos_iff.mpr h.2.1.1
      have htail := ih h.2.2.2
      simp only [List.length_cons, render_cons, Lexeme.text, List.length_append]
      omega

/-- **Tokenising is printing backwards.** -/
theorem lex_iff {input : List α} {ts : List (Lexeme α)} {trail : List α} :
    lex R input = some (ts, trail) ↔
      LexOK R ts ∧ (∀ c ∈ trail, R.space c = true) ∧ input = render ts ++ trail := by
  constructor
  · exact lexLoop_sound
  · rintro ⟨hok, htr, rfl⟩
    have hlen := length_le_render hok
    exact lexLoop_complete htr hok (by simp only [List.length_append]; omega)

/-! ## §6. Seams. -/

/-- Nothing glues where `ts` meets `us`: the last token of `ts` does not grow
into `us`. -/
def Seam (R : Rules α) (ts us : List (Lexeme α)) : Prop :=
  ∀ t, ts.getLast? = some t → Stops R t.body (render us)

theorem seam_nil_left (us : List (Lexeme α)) : Seam R [] us := by
  intro t ht
  simp at ht

theorem seam_nil_right (ts : List (Lexeme α)) : Seam R ts [] := by
  intro t _
  exact stops_nil _

theorem seam_append_left {as ts us : List (Lexeme α)} (h : ts ≠ []) :
    Seam R (as ++ ts) us ↔ Seam R ts us := by
  unfold Seam
  rw [List.getLast?_append, List.getLast?_eq_some_getLast h, Option.some_or]

theorem render_ne_nil {ts : List (Lexeme α)} (h : LexOK R ts) (hne : ts ≠ []) :
    render ts ≠ [] := by
  intro hr
  have hlen := length_le_render h
  rw [hr, List.length_nil, Nat.le_zero, List.length_eq_zero_iff] at hlen
  exact hne hlen

theorem seam_append_right {ts us bs : List (Lexeme α)} (hok : LexOK R us) (h : us ≠ []) :
    Seam R ts (us ++ bs) ↔ Seam R ts us := by
  unfold Seam
  simp only [render_append, stops_append (render_ne_nil hok h)]

/-- **Two lists of tokens side by side.** -/
theorem lexOK_append {ts us : List (Lexeme α)} :
    LexOK R (ts ++ us) ↔ LexOK R ts ∧ LexOK R us ∧ Seam R ts us := by
  induction ts with
  | nil => simp [LexOK, seam_nil_left]
  | cons t ts ih =>
      show _ ∧ _ ∧ Stops R t.body (render (ts ++ us)) ∧ LexOK R (ts ++ us) ↔ _
      rw [ih]
      cases ts with
      | nil =>
          simp only [LexOK, Seam, List.nil_append, render_nil, stops_nil, List.getLast?_singleton,
            Option.some.injEq, forall_eq', List.getLast?_nil, true_and, and_true]
          constructor
          · rintro ⟨h1, h2, h3, h4, _⟩
            exact ⟨⟨h1, h2⟩, h4, h3⟩
          · rintro ⟨⟨h1, h2⟩, h4, h3⟩
            exact ⟨h1, h2, h3, h4, nofun⟩
      | cons t' ts =>
          have hlast : Seam R (t :: t' :: ts) us ↔ Seam R (t' :: ts) us :=
            @seam_append_left _ R [t] _ _ (by simp)
          rw [hlast]
          constructor
          · rintro ⟨h1, h2, h3, h4, h5, h6⟩
            rw [render_append, stops_append (render_ne_nil h4 (by simp))] at h3
            exact ⟨⟨h1, h2, h3, h4⟩, h5, h6⟩
          · rintro ⟨⟨h1, h2, h3, h4⟩, h5, h6⟩
            rw [render_append, stops_append (render_ne_nil h4 (by simp))]
            exact ⟨h1, h2, h3, h4, h5, h6⟩

end ShaderClippy.Munch
