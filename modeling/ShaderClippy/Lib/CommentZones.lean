/-
  ShaderClippy.Lib.CommentZones

  **WHICH CHARACTERS ARE COMMENT.**

  Line comments and block comments, by an automaton with five states. `marks`
  says of every character of a text if it belongs to a comment; two texts put
  side by side are marked one after the other, unless a slash or a star stands
  where they meet (`marks_append`).
-/
import Mathlib.Data.List.Basic

namespace Comments

/-- Where a character stands: in code, behind a slash in code, in a line comment,
in a block comment, behind a star there. -/
inductive Zone where
  | code
  | slash
  | line
  | block
  | star
  deriving DecidableEq, Repr

namespace Zone

/-- Behind one more character. -/
def next : Zone → Char → Zone
  | .code, c => if c = '/' then .slash else .code
  | .slash, c => if c = '/' then .line else if c = '*' then .block else .code
  | .line, c => if c = '\n' then .code else .line
  | .block, c => if c = '*' then .star else .block
  | .star, c => if c = '/' then .code else if c = '*' then .star else .block

/-- In a comment. -/
def inside : Zone → Bool
  | .code => false
  | .slash => false
  | .line => true
  | .block => true
  | .star => true

/-- A character with another one behind it belongs to a comment. -/
def covers : Zone → Char → Option Char → Bool
  | .code, c, d => c == '/' && (d == some '/' || d == some '*')
  | .slash, c, _ => c == '/' || c == '*'
  | .line, c, _ => c != '\n'
  | .block, _, _ => true
  | .star, _, _ => true

end Zone

/-- Behind a text. -/
def after (z : Zone) (s : List Char) : Zone := s.foldl Zone.next z

/-- The characters, each with whether it belongs to a comment. -/
def marks : Zone → List Char → List (Char × Bool)
  | _, [] => []
  | z, c :: s => (c, z.covers c s.head?) :: marks (z.next c) s

/-- What is no comment. -/
def code (m : List (Char × Bool)) : List Char := (m.filter fun x => !x.2).map Prod.fst

/-- What is comment. -/
def comment (m : List (Char × Bool)) : List Char := (m.filter fun x => x.2).map Prod.fst

/-- The text neither begins nor ends a comment together with what is in front. -/
def Plain (t : List Char) : Prop := ∀ c, t.head? = some c → c ≠ '/' ∧ c ≠ '*'

theorem plain_cons {c : Char} {t : List Char} (hslash : c ≠ '/') (hstar : c ≠ '*') : Plain (c :: t) := by
  intro d hd
  cases hd
  exact ⟨hslash, hstar⟩

theorem after_append (z : Zone) (s t : List Char) : after z (s ++ t) = after (after z s) t := List.foldl_append

theorem after_cons (z : Zone) (c : Char) (s : List Char) : after z (c :: s) = after (z.next c) s := rfl

theorem length_marks (z : Zone) (s : List Char) : (marks z s).length = s.length := by
  induction s generalizing z with
  | nil => rfl
  | cons c s ih => rw [marks, List.length_cons, ih, List.length_cons]

theorem map_fst_marks (z : Zone) (s : List Char) : (marks z s).map Prod.fst = s := by
  induction s generalizing z with
  | nil => rfl
  | cons c s ih => rw [marks, List.map_cons, ih]

/-- **Two texts side by side.** -/
theorem marks_append {z : Zone} {s t : List Char} (ht : Plain t) :
    marks z (s ++ t) = marks z s ++ marks (after z s) t := by
  induction s generalizing z with
  | nil => rfl
  | cons c s ih =>
      have hcovers : z.covers c (s ++ t).head? = z.covers c s.head? := by
        cases s with
        | cons d s => rfl
        | nil =>
            cases t with
            | nil => rfl
            | cons d t =>
                obtain ⟨hslash, hstar⟩ := ht d rfl
                cases z with
                | code =>
                    have hno : (some d == some '/' || some d == some '*') = false := by simp [hslash, hstar]
                    show (c == '/' && (some d == some '/' || some d == some '*')) = (c == '/' && _)
                    rw [hno]
                    rfl
                | _ => rfl
      rw [List.cons_append, marks, marks, hcovers, ih, after_cons, List.cons_append]

/-- Behind a character that is no slash, any text may stand. -/
theorem marks_concat {z : Zone} {s : List Char} {c : Char} (hslash : c ≠ '/') (hstar : c ≠ '*') (t : List Char) :
    marks z (s ++ c :: t) = marks z (s ++ [c]) ++ marks (after z (s ++ [c])) t := by
  have hcovers : ∀ y : Zone, y.covers c t.head? = y.covers c none := by
    intro y
    cases y with
    | code =>
        rw [Zone.covers, Zone.covers, beq_eq_false_iff_ne.mpr hslash]
        rfl
    | _ => rfl
  rw [marks_append (plain_cons hslash hstar), marks_append (plain_cons hslash hstar), marks, marks, hcovers,
    List.append_assoc, after_append]
  rfl

/-- In code, behind a slash or not: the same, in front of a plain text. -/
theorem marks_code {z : Zone} (hz : z.inside = false) {t : List Char} (ht : Plain t) :
    marks z t = marks .code t := by
  cases t with
  | nil => rfl
  | cons c t =>
      obtain ⟨hslash, hstar⟩ := ht c rfl
      cases z with
      | code => rfl
      | slash =>
          have hnext : Zone.next .slash c = Zone.next .code c := by
            rw [Zone.next, Zone.next, if_neg hslash, if_neg hstar, if_neg hslash]
          have hcovers : Zone.covers .slash c t.head? = Zone.covers .code c t.head? := by
            rw [Zone.covers, Zone.covers, beq_eq_false_iff_ne.mpr hslash, beq_eq_false_iff_ne.mpr hstar]
            rfl
          rw [marks, marks, hnext, hcovers]
      | _ => cases hz

theorem after_code {z : Zone} (hz : z.inside = false) {c : Char} (hslash : c ≠ '/') (hstar : c ≠ '*') :
    z.next c = .code := by
  cases z with
  | code => rw [Zone.next, if_neg hslash]
  | slash => rw [Zone.next, if_neg hslash, if_neg hstar]
  | _ => cases hz

/-- A text of code, with no slash in it. -/
theorem marks_quiet {s : List Char} (hs : '/' ∉ s) :
    marks .code s = s.map (·, false) ∧ after .code s = .code := by
  induction s with
  | nil => exact ⟨rfl, rfl⟩
  | cons c s ih =>
      have hc : c ≠ '/' := fun h => hs (h ▸ List.mem_cons_self)
      obtain ⟨hmarks, hafter⟩ := ih fun h => hs (List.mem_cons_of_mem c h)
      have hnext : Zone.next .code c = .code := if_neg hc
      have hcovers : Zone.covers .code c s.head? = false := by
        rw [Zone.covers, beq_eq_false_iff_ne.mpr hc]
        rfl
      rw [marks, after_cons, hnext, hcovers, hmarks, hafter]
      exact ⟨rfl, rfl⟩

/-- A character in a comment that does not end it. -/
theorem next_inside {z : Zone} (hz : z.inside = true) {c : Char} (hslash : c ≠ '/') (hbreak : c ≠ '\n') :
    (z.next c).inside = true := by
  cases z with
  | code => cases hz
  | slash => cases hz
  | line => rw [Zone.next, if_neg hbreak]; rfl
  | block =>
      rw [Zone.next]
      split <;> rfl
  | star =>
      rw [Zone.next, if_neg hslash]
      split <;> rfl

/-- A plain character is comment exactly if it stands in one. -/
theorem covers_plain {z : Zone} {c : Char} (hslash : c ≠ '/') (hstar : c ≠ '*') (hbreak : c ≠ '\n')
    (d : Option Char) : z.covers c d = z.inside := by
  have h1 : (c == '/') = false := beq_eq_false_iff_ne.mpr hslash
  have h2 : (c == '*') = false := beq_eq_false_iff_ne.mpr hstar
  cases z with
  | code => rw [Zone.covers, h1]; rfl
  | slash => rw [Zone.covers, h1, h2]; rfl
  | line => rw [Zone.covers, bne_iff_ne.mpr hbreak]; rfl
  | block => rfl
  | star => rfl

/-- A plain character is marked by where it stands. -/
theorem marks_char {z : Zone} {s t : List Char} {c : Char} (hslash : c ≠ '/') (hstar : c ≠ '*') (hbreak : c ≠ '\n') :
    (marks z (s ++ c :: t))[s.length]? = some (c, (after z s).inside) := by
  have hlength : s.length = (marks z s).length := (length_marks z s).symm
  rw [marks_append (plain_cons hslash hstar), hlength, List.getElem?_append_right (Nat.le_refl _), Nat.sub_self,
    marks, covers_plain hslash hstar hbreak]
  rfl

theorem code_append (m n : List (Char × Bool)) : code (m ++ n) = code m ++ code n := by
  rw [code, List.filter_append, List.map_append]
  rfl

theorem comment_append (m n : List (Char × Bool)) : comment (m ++ n) = comment m ++ comment n := by
  rw [comment, List.filter_append, List.map_append]
  rfl

theorem code_quiet (s : List Char) : code (s.map (·, false)) = s := by
  induction s with
  | nil => rfl
  | cons c s ih =>
      show c :: code (s.map (·, false)) = c :: s
      rw [ih]

theorem comment_quiet (s : List Char) : comment (s.map (·, false)) = [] := by
  induction s with
  | nil => rfl
  | cons c s ih => exact ih

end Comments
