/-
  ShaderClippy.Config.Glob

  **PATH GLOBS** (`config.cpp`, `glob_match`, `path_glob_match`).

  The header promises that `**` stands for whole path components; the matcher
  lets it stand for any characters at all, and it wants the separator in front
  of a closing `**` even where that stands for nothing.

  `PathMatch` is what the header says, component by component. `Cut` is the
  matcher as a relation, and `pathGlobMatch_iff` says for which globs and paths
  the two are the same.
-/
import Mathlib.Data.List.Infix
import Mathlib.Tactic.ByContra
import ShaderClippy.Lib.Lines
import ShaderClippy.Source

namespace ShaderClippy.Config

open Lines

/-! ## §1. The matcher. -/

/-- `normalise_separators`. -/
def normaliseSeparators (s : Text) : Text := s.map fun c => if c = '\\' then '/' else c

/-- `**` takes a separator that follows it. -/
def eatSlash : Text → Text
  | [] => []
  | c :: cs => if c = '/' then cs else c :: cs

theorem length_eatSlash_le (s : Text) : (eatSlash s).length ≤ s.length := by
  cases s with
  | nil => exact Nat.le_refl _
  | cons c cs =>
      rw [eatSlash]
      split
      · exact Nat.le_succ _
      · exact Nat.le_refl _

/-- Where a `*` may stop: anywhere up to the next separator. -/
def starEnds : Text → List Text
  | [] => [[]]
  | c :: cs => (c :: cs) :: if c = '/' then [] else starEnds cs

/-- `glob_match`. -/
def globMatch : Text → Text → Bool
  | [], text => text.isEmpty
  | '*' :: '*' :: rest, text => text.tails.any fun t => globMatch (eatSlash rest) t
  | '*' :: rest, text => (starEnds text).any fun t => globMatch rest t
  | _ :: _, [] => false
  | '?' :: rest, c :: cs => if c = '/' then false else globMatch rest cs
  | p :: rest, c :: cs => if p ≠ c then false else globMatch rest cs
  termination_by pattern => pattern.length
  decreasing_by
    · have := length_eatSlash_le rest
      simp only [List.length_cons]
      omega
    all_goals exact Nat.lt_succ_self _

/-- `path_glob_match`, on a path in its generic form. -/
def pathGlobMatch (glob path : Text) : Bool :=
  globMatch (normaliseSeparators glob) (normaliseSeparators path)

/-! ## §2. What the header says. -/

def components (path : Text) : List Text := split '/' path

/-- The component `**`. -/
def kDoubleStar : Text := ['*', '*']

/-- A component of a glob matches a component of a path. -/
inductive ComponentMatch : Text → Text → Prop
  | nil : ComponentMatch [] []
  | star {g t : Text} (u : Text) : '/' ∉ u → ComponentMatch g t → ComponentMatch ('*' :: g) (u ++ t)
  | one {g t : Text} (c : Char) : c ≠ '/' → ComponentMatch g t → ComponentMatch ('?' :: g) (c :: t)
  | same {g t : Text} (c : Char) : c ≠ '*' → c ≠ '?' → ComponentMatch g t →
      ComponentMatch (c :: g) (c :: t)

/-- The components of a glob match the components of a path. -/
inductive PathMatch : List Text → List Text → Prop
  | nil : PathMatch [] []
  | any {gs ps : List Text} (qs : List Text) : PathMatch gs ps →
      PathMatch (kDoubleStar :: gs) (qs ++ ps)
  | component {g p : Text} {gs ps : List Text} : g ≠ kDoubleStar → ComponentMatch g p →
      PathMatch gs ps → PathMatch (g :: gs) (p :: ps)

def globComponents (glob : Text) : List Text := components (normaliseSeparators glob)

/-- The path matches the glob, as the header says. -/
def Matches (glob path : Text) : Prop :=
  PathMatch (globComponents glob) (components (normaliseSeparators path))

/-! ## §3. Where the two agree. -/

/-- No two stars are neighbours. -/
def apart : Text → Bool
  | '*' :: '*' :: _ => false
  | _ :: cs => apart cs
  | [] => true

/-- `**` only ever is a whole component. -/
def WholeStars (gs : List Text) : Prop := ∀ g ∈ gs, g = kDoubleStar ∨ apart g = true

instance (gs : List Text) : Decidable (WholeStars gs) :=
  inferInstanceAs (Decidable (∀ g ∈ gs, g = kDoubleStar ∨ apart g = true))

def startsWithStar : List Text → Bool
  | ('*' :: _) :: _ => true
  | _ => false

/-- The components before the first `**`, and the rest. -/
def plainHead (gs : List Text) : List Text := gs.takeWhile fun g => decide (g ≠ kDoubleStar)
def fromDoubleStar (gs : List Text) : List Text := gs.dropWhile fun g => decide (g ≠ kDoubleStar)

/-- The first `**` that is part of a component, between `x` and `y`. -/
structure Inside (gs front : List Text) (x y : Text) (back : List Text) : Prop where
  split : gs = front ++ (x ++ '*' :: '*' :: y) :: back
  whole : WholeStars front
  first : apart (x ++ ['*']) = true
  part : x ≠ [] ∨ y ≠ []

/-- What is left of the glob behind it: the `**` takes a separator, too. -/
def restOf (y : Text) (back : List Text) : List Text := if y = [] ∧ back ≠ [] then back else y :: back

/-- The text is cut along the components of the glob: `**` takes any characters,
other components what is between two separators. -/
inductive Cut : List Text → Text → Prop
  | anyLast (t : Text) : Cut [kDoubleStar] t
  | any {gs : List Text} {v : Text} (u : Text) : Cut gs v → Cut (kDoubleStar :: gs) (u ++ v)
  | last {g t : Text} : g ≠ kDoubleStar → '/' ∉ t → ComponentMatch g t → Cut [g] t
  | component {g u v : Text} {gs : List Text} : g ≠ kDoubleStar → '/' ∉ u → ComponentMatch g u →
      Cut gs v → Cut (g :: gs) (u ++ '/' :: v)

/-- What keeps every `**` of the glob to whole components of the path. -/
structure Aligned (gs : List Text) (path : Text) : Prop where
  /-- Where the path begins as the glob does up to a `**` inside a component, no
  other `**` follows, and where what follows matches an end of the path, the
  whole glob matches as well. -/
  inside : ∀ front x y back u w v, Inside gs front x y back → path = u ++ (w ++ v) →
    Cut (front ++ [x]) u → (∀ g ∈ restOf y back, apart g = true)
      ∧ (PathMatch (restOf y back) (components v) → PathMatch gs (components path))
  /-- Where the path begins as the glob does, and what follows a `**` in the
  glob, not beginning with a star, matches an end of the path that begins inside
  a component, the whole glob matches as well. -/
  overhang : WholeStars gs → ∀ lead rest front back u c v, components path = lead ++ components rest →
    PathMatch (plainHead gs) lead → fromDoubleStar gs = front ++ kDoubleStar :: back →
    startsWithStar back = false → rest = u ++ c :: v → c ≠ '/' →
    PathMatch back (components v) → PathMatch gs (components path)
  /-- Where the glob ends in `**` and what precedes it matches the whole path, it
  also matches fewer components of it. -/
  closing : WholeStars gs → ∀ front, gs = front ++ [kDoubleStar] →
    PathMatch front (components path) →
    ∃ lead rest, components path = lead ++ rest ∧ rest ≠ [] ∧ PathMatch front lead

/-- No `**` stands behind one that is part of a component, and no two whole ones
in a glob without such. -/
structure Once (gs : List Text) : Prop where
  inside : ∀ front x y back, Inside gs front x y back → ∀ g ∈ restOf y back, apart g = true
  whole : WholeStars gs → gs.count kDoubleStar ≤ 1

/-! ## §4. The matcher as a relation. -/

theorem mem_starEnds {t s : Text} : s ∈ starEnds t ↔ ∃ u, t = u ++ s ∧ '/' ∉ u := by
  induction t with
  | nil =>
      rw [starEnds, List.mem_singleton]
      constructor
      · intro hs
        exact ⟨[], by rw [hs]; rfl, by simp⟩
      · rintro ⟨u, hu, -⟩
        exact (List.append_eq_nil_iff.mp hu.symm).2
  | cons c cs ih =>
      rw [starEnds, List.mem_cons]
      constructor
      · rintro (hs | hs)
        · exact ⟨[], by rw [hs]; rfl, by simp⟩
        · by_cases hc : c = '/'
          · rw [if_pos hc] at hs
            cases hs
          · rw [if_neg hc] at hs
            have ⟨u, hu, hsep⟩ := ih.mp hs
            exact ⟨c :: u, by rw [hu]; rfl, by simp [Ne.symm hc, hsep]⟩
      · rintro ⟨u, hu, hsep⟩
        -- nothing is taken, or the first character and more
        cases u with
        | nil => exact Or.inl hu.symm
        | cons d u =>
            cases hu
            have hc : ¬ c = '/' := fun heq => hsep (heq ▸ List.mem_cons_self ..)
            rw [if_neg hc]
            exact Or.inr (ih.mpr ⟨u, rfl, fun hmem => hsep (List.mem_cons_of_mem _ hmem)⟩)

theorem globMatch_nil {t : Text} : globMatch [] t = true ↔ t = [] := by
  rw [globMatch, List.isEmpty_iff]

/-- A character of the glob that is no wildcard. -/
theorem globMatch_same {p : Char} {r t : Text} (hstar : p ≠ '*') (hone : p ≠ '?') :
    globMatch (p :: r) t = true ↔ ∃ v, t = p :: v ∧ globMatch r v = true := by
  cases t with
  | nil => simp [globMatch, hstar]
  | cons c cs =>
      rw [globMatch]
      · by_cases hc : p = c
        · simp [hc]
        · simp [hc, Ne.symm hc]
      · simp [hstar]
      · simp [hstar]
      · simp [hone]

theorem globMatch_one {r t : Text} :
    globMatch ('?' :: r) t = true ↔ ∃ c v, t = c :: v ∧ c ≠ '/' ∧ globMatch r v = true := by
  cases t with
  | nil => simp [globMatch]
  | cons c cs =>
      rw [globMatch]
      by_cases hc : c = '/'
      · simp [hc]
      · simp [hc]

/-- A single star takes any characters up to the next separator. -/
theorem globMatch_star {r t : Text} (hr : r.head? ≠ some '*') :
    globMatch ('*' :: r) t = true ↔ ∃ u v, t = u ++ v ∧ '/' ∉ u ∧ globMatch r v = true := by
  rw [globMatch, List.any_eq_true]
  · constructor
    · rintro ⟨v, hv, hmatch⟩
      have ⟨u, hu, hsep⟩ := mem_starEnds.mp hv
      exact ⟨u, v, hu, hsep, hmatch⟩
    · rintro ⟨u, v, hu, hsep, hmatch⟩
      exact ⟨v, mem_starEnds.mpr ⟨u, hu, hsep⟩, hmatch⟩
  · rintro rest rfl
    exact hr rfl

/-- Two stars take any characters, and a separator of the glob. -/
theorem globMatch_doubleStar {r t : Text} :
    globMatch ('*' :: '*' :: r) t = true ↔ ∃ u v, t = u ++ v ∧ globMatch (eatSlash r) v = true := by
  rw [globMatch, List.any_eq_true]
  constructor
  · rintro ⟨v, hv, hmatch⟩
    have ⟨u, hu⟩ := (List.mem_tails v t).mp hv
    exact ⟨u, v, hu.symm, hmatch⟩
  · rintro ⟨u, v, hu, hmatch⟩
    exact ⟨v, (List.mem_tails v t).mpr ⟨u, hu.symm⟩, hmatch⟩

/-- What a character of a component takes: a star any characters, `?` one, any other itself. -/
def Takes (p : Char) (w : Text) : Prop :=
  if p = '*' then True else if p = '?' then ∃ c, w = [c] else w = [p]

/-- A component takes what its first character takes, and then the rest. -/
theorem componentMatch_cons {p : Char} {g u : Text} (hu : '/' ∉ u) :
    ComponentMatch (p :: g) u ↔ ∃ w s, u = w ++ s ∧ Takes p w ∧ ComponentMatch g s := by
  unfold Takes
  constructor
  · intro h
    cases h with
    | star w _ hs => exact ⟨w, _, rfl, trivial, hs⟩
    | one c _ hs => exact ⟨[c], _, rfl, ⟨c, rfl⟩, hs⟩
    | same _ hstar hone hs =>
        refine ⟨[p], _, rfl, ?_, hs⟩
        rw [if_neg hstar, if_neg hone]
  · rintro ⟨w, s, rfl, hw, hs⟩
    split at hw
    case isTrue hstar =>
      subst hstar
      exact .star w (fun hmem => hu (List.mem_append_left _ hmem)) hs
    case isFalse hstar =>
      split at hw
      case isTrue hone =>
        obtain ⟨c, rfl⟩ := hw
        subst hone
        exact .one c (fun heq => hu (heq ▸ List.mem_cons_self ..)) hs
      case isFalse hone =>
        subst hw
        exact .same p hstar hone hs

/-- So does the matcher, where no second star follows. -/
theorem globMatch_takes {p : Char} {r t : Text} (hp : p ≠ '/') (hr : p = '*' → r.head? ≠ some '*') :
    globMatch (p :: r) t = true ↔ ∃ w s, t = w ++ s ∧ '/' ∉ w ∧ Takes p w ∧ globMatch r s = true := by
  unfold Takes
  split
  case isTrue hstar =>
    subst hstar
    rw [globMatch_star (hr rfl)]
    simp only [true_and]
  case isFalse hstar =>
    split
    case isTrue hone =>
      subst hone
      rw [globMatch_one]
      constructor
      · rintro ⟨c, s, rfl, hc, hs⟩
        exact ⟨[c], s, rfl, by simp [Ne.symm hc], ⟨c, rfl⟩, hs⟩
      · rintro ⟨_, s, rfl, hsep, ⟨c, rfl⟩, hs⟩
        exact ⟨c, s, rfl, fun heq => hsep (heq ▸ List.mem_cons_self ..), hs⟩
    case isFalse hone =>
      rw [globMatch_same hstar hone]
      constructor
      · rintro ⟨s, rfl, hs⟩
        exact ⟨[p], s, rfl, by simp [Ne.symm hp], rfl, hs⟩
      · rintro ⟨_, s, rfl, -, rfl, hs⟩
        exact ⟨s, rfl, hs⟩

/-- A component without neighbouring stars takes what the header says, and the
rest of the glob the rest of the path. -/
theorem globMatch_component {g r t : Text} (hsep : '/' ∉ g) (hapart : apart g = true)
    (hr : g.getLast? = some '*' → r.head? ≠ some '*') :
    globMatch (g ++ r) t = true ↔
      ∃ u v, t = u ++ v ∧ '/' ∉ u ∧ ComponentMatch g u ∧ globMatch r v = true := by
  induction g generalizing t with
  | nil =>
      constructor
      · intro h
        exact ⟨[], t, rfl, by simp, .nil, h⟩
      · rintro ⟨u, v, rfl, -, hu, hv⟩
        cases hu
        exact hv
  | cons p g ih =>
      have hsep' : '/' ∉ g := fun hmem => hsep (List.mem_cons_of_mem _ hmem)
      have hp : p ≠ '/' := fun heq => hsep (heq ▸ List.mem_cons_self ..)
      have hlast : g.getLast? = some '*' → (p :: g).getLast? = some '*' := by
        cases g with
        | nil => intro h; cases h
        | cons q g => exact fun h => (List.getLast?_cons_cons ..).trans h
      -- a star is a single one, also at the end of the component
      have hnext : p = '*' → (g ++ r).head? ≠ some '*' := by
        rintro rfl
        cases g with
        | nil => exact hr rfl
        | cons q g =>
            intro hq
            cases Option.some.inj hq
            simp [apart] at hapart
      have hapart' : apart g = true := by
        rw [apart] at hapart
        · exact hapart
        · rintro rest rfl rfl
          exact hnext rfl rfl
      replace ih := fun (t : Text) => ih (t := t) hsep' hapart' fun h => hr (hlast h)
      rw [List.cons_append, globMatch_takes hp hnext]
      constructor
      · rintro ⟨w, s, rfl, hw, htakes, hs⟩
        obtain ⟨u, v, rfl, hu, hmatch, hv⟩ := (ih s).mp hs
        -- what the character takes and what the rest takes
        have hwu : '/' ∉ w ++ u := fun hmem => (List.mem_append.mp hmem).elim hw hu
        exact ⟨w ++ u, v, (List.append_assoc ..).symm, hwu,
          (componentMatch_cons hwu).mpr ⟨w, u, rfl, htakes, hmatch⟩, hv⟩
      · rintro ⟨u, v, rfl, hu, hmatch, hv⟩
        obtain ⟨w, s, rfl, htakes, hs⟩ := (componentMatch_cons hu).mp hmatch
        refine ⟨w, s ++ v, List.append_assoc .., fun hmem => hu (List.mem_append_left _ hmem), htakes, ?_⟩
        exact (ih _).mpr ⟨s, v, rfl, fun hmem => hu (List.mem_append_right _ hmem), hs, hv⟩

theorem globMatch_separator {r t : Text} :
    globMatch ('/' :: r) t = true ↔ ∃ v, t = '/' :: v ∧ globMatch r v = true :=
  globMatch_same (by decide) (by decide)

/-- `v` is what a component of the glob, with a separator behind it, leaves of the text. -/
def Behind (g t v : Text) : Prop :=
  (g = kDoubleStar ∧ ∃ u, t = u ++ v) ∨
    (g ≠ kDoubleStar ∧ ∃ u, t = u ++ '/' :: v ∧ '/' ∉ u ∧ ComponentMatch g u)

/-- The matcher takes one component after the other. -/
theorem globMatch_cons {g t : Text} {gs : List Text} (hgs : gs ≠ []) (hsep : '/' ∉ g)
    (hwhole : g = kDoubleStar ∨ apart g = true) :
    globMatch (join '/' (g :: gs)) t = true ↔ ∃ v, Behind g t v ∧ globMatch (join '/' gs) v = true := by
  rw [join_cons '/' g hgs]
  by_cases hstars : g = kDoubleStar
  · subst hstars
    show globMatch ('*' :: '*' :: '/' :: join '/' gs) t = true ↔ _
    rw [globMatch_doubleStar]
    constructor
    · rintro ⟨u, v, ht, hv⟩
      exact ⟨v, Or.inl ⟨rfl, u, ht⟩, hv⟩
    · rintro ⟨v, ⟨-, u, ht⟩ | ⟨hne, -⟩, hv⟩
      · exact ⟨u, v, ht, hv⟩
      · exact absurd rfl hne
  · rw [globMatch_component hsep (hwhole.resolve_left hstars) (by simp)]
    constructor
    · rintro ⟨u, s, rfl, hu, hmatch, hs⟩
      obtain ⟨v, rfl, hv⟩ := globMatch_separator.mp hs
      exact ⟨v, Or.inr ⟨hstars, u, rfl, hu, hmatch⟩, hv⟩
    · rintro ⟨v, ⟨heq, -⟩ | ⟨-, u, rfl, hu, hmatch⟩, hv⟩
      · exact absurd heq hstars
      · exact ⟨u, '/' :: v, rfl, hu, hmatch, globMatch_separator.mpr ⟨v, rfl, hv⟩⟩

theorem cut_cons {g t : Text} {gs : List Text} (hgs : gs ≠ []) :
    Cut (g :: gs) t ↔ ∃ v, Behind g t v ∧ Cut gs v := by
  constructor
  · intro hcut
    cases hcut with
    | anyLast => exact absurd rfl hgs
    | any u hrest => exact ⟨_, Or.inl ⟨rfl, u, rfl⟩, hrest⟩
    | last => exact absurd rfl hgs
    | component hne hu hmatch hrest => exact ⟨_, Or.inr ⟨hne, _, rfl, hu, hmatch⟩, hrest⟩
  · rintro ⟨v, ⟨rfl, u, rfl⟩ | ⟨hne, u, rfl, hu, hmatch⟩, hrest⟩
    · exact .any u hrest
    · exact .component hne hu hmatch hrest

theorem cut_singleton {g t : Text} (hne : g ≠ kDoubleStar) :
    Cut [g] t ↔ '/' ∉ t ∧ ComponentMatch g t := by
  constructor
  · intro hcut
    cases hcut with
    | anyLast => exact absurd rfl hne
    | any => exact absurd rfl hne
    | last _ ht hmatch => exact ⟨ht, hmatch⟩
    | component _ _ _ hrest => cases hrest
  · rintro ⟨ht, hmatch⟩
    exact .last hne ht hmatch

/-- The matcher cuts the text along the components. -/
theorem globMatch_iff_cut {gs : List Text} {t : Text} (hne : gs ≠ []) (hwhole : WholeStars gs)
    (hsep : ∀ g ∈ gs, '/' ∉ g) : globMatch (join '/' gs) t = true ↔ Cut gs t := by
  induction gs generalizing t with
  | nil => exact absurd rfl hne
  | cons g gs ih =>
      have hg := hsep g (List.mem_cons_self ..)
      have hwhole' : WholeStars gs := fun x hx => hwhole x (List.mem_cons_of_mem _ hx)
      have hsep' : ∀ x ∈ gs, '/' ∉ x := fun x hx => hsep x (List.mem_cons_of_mem _ hx)
      by_cases hgs : gs = []
      · subst hgs
        by_cases hstars : g = kDoubleStar
        · subst hstars
          -- a closing `**` takes everything
          refine iff_of_true ?_ (.anyLast t)
          exact globMatch_doubleStar.mpr ⟨t, [], by simp, globMatch_nil.mpr rfl⟩
        · -- the last component takes all that is left
          have hapart := (hwhole g (List.mem_cons_self ..)).resolve_left hstars
          have hcomp := globMatch_component (r := []) (t := t) hg hapart (by simp)
          rw [List.append_nil] at hcomp
          rw [join, hcomp, cut_singleton hstars]
          constructor
          · rintro ⟨u, v, rfl, hu, hmatch, hv⟩
            rw [globMatch_nil.mp hv, List.append_nil]
            exact ⟨hu, hmatch⟩
          · rintro ⟨ht, hmatch⟩
            exact ⟨t, [], by simp, ht, hmatch, globMatch_nil.mpr rfl⟩
      · rw [globMatch_cons hgs hg (hwhole g (List.mem_cons_self ..)), cut_cons hgs]
        simp only [ih hgs hwhole' hsep']

/-! ## §5. From components to cuts. -/

theorem pathMatch_append {as bs ps : List Text} :
    PathMatch (as ++ bs) ps ↔ ∃ ls rs, ps = ls ++ rs ∧ PathMatch as ls ∧ PathMatch bs rs := by
  constructor
  · intro h
    induction as generalizing ps with
    | nil => exact ⟨[], ps, rfl, .nil, h⟩
    | cons a as ih =>
        cases h with
        | any qs hrest =>
            have ⟨ls, rs, hps, hl, hr⟩ := ih hrest
            exact ⟨qs ++ ls, rs, by rw [hps, List.append_assoc], .any qs hl, hr⟩
        | component hne hmatch hrest =>
            have ⟨ls, rs, hps, hl, hr⟩ := ih hrest
            exact ⟨_ :: ls, rs, by rw [hps]; rfl, .component hne hmatch hl, hr⟩
  · rintro ⟨ls, rs, rfl, hl, hr⟩
    induction hl with
    | nil => exact hr
    | any qs _ ih =>
        rw [List.append_assoc]
        exact .any qs ih
    | component hne hmatch _ ih => exact .component hne hmatch ih

theorem components_ne_nil (t : Text) : components t ≠ [] := split_ne_nil '/' t

theorem components_of_not_mem {t : Text} (h : '/' ∉ t) : components t = [t] :=
  split_of_unbroken '/' h

/-- A component and what follows it, as texts. -/
theorem components_eq_cons {t p : Text} {ps : List Text} (h : components t = p :: ps)
    (hps : ps ≠ []) : ∃ v, t = p ++ '/' :: v ∧ '/' ∉ p ∧ components v = ps := by
  have ⟨u, v, ht, hu, hv⟩ := split_eq_append '/' (List.cons_ne_nil p []) hps h
  have hp : '/' ∉ p := unbroken_split '/' t p (by rw [← components, h]; exact List.mem_cons_self ..)
  have hup : u = p := by
    have hjoin := join_split '/' u
    rw [hu] at hjoin
    exact hjoin.symm
  exact ⟨v, by rw [ht, hup], hp, hv⟩

/-- Components that match, and a cut of the text after them. -/
theorem cut_append {gs hs lead : List Text} {t rest : Text} (hmatch : PathMatch gs lead)
    (ht : components t = lead ++ components rest) (hcut : Cut hs rest) : Cut (gs ++ hs) t := by
  induction hmatch generalizing t with
  | nil =>
      have htr : t = rest := by
        have hjoin := join_split '/' t
        rw [← components, ht] at hjoin
        exact hjoin.symm.trans (join_split '/' rest)
      rw [htr]
      exact hcut
  | @any gs ps qs hrest ih =>
      by_cases hqs : qs = []
      · subst hqs
        exact Cut.any [] (ih ht)
      · rw [List.append_assoc] at ht
        have hne : ps ++ components rest ≠ [] := by simp [components_ne_nil]
        have ⟨u, v, htuv, _, hv⟩ := split_eq_append '/' hqs hne ht
        -- the components that `**` matches are a text, with the separator behind it
        have hcut' := Cut.any (u ++ ['/']) (ih hv)
        rw [htuv]
        simpa using hcut'
  | @component g p gs ps hne hg hrest ih =>
      have hps : ps ++ components rest ≠ [] := by simp [components_ne_nil]
      have ⟨v, htv, hp, hv⟩ := components_eq_cons ht hps
      rw [htv]
      exact .component hne hp hg (ih hv)

theorem exists_components {t : Text} {lead rest : List Text} (h : components t = lead ++ rest)
    (hrest : rest ≠ []) : ∃ r, components r = rest := by
  by_cases hlead : lead = []
  · subst hlead
    exact ⟨t, h⟩
  · have ⟨_, v, _, _, hv⟩ := split_eq_append '/' hlead hrest h
    exact ⟨v, hv⟩

/-- A path that matches is cut, unless a closing `**` only matches nothing. -/
theorem cut_of_pathMatch {gs : List Text} {t : Text} (hmatch : PathMatch gs (components t))
    (hclosing : ∀ front, gs = front ++ [kDoubleStar] → PathMatch front (components t) →
      ∃ lead rest, components t = lead ++ rest ∧ rest ≠ [] ∧ PathMatch front lead) :
    Cut gs t := by
  rcases List.eq_nil_or_concat gs with rfl | ⟨front, g, rfl⟩
  · generalize hps : components t = ps at hmatch
    cases hmatch
    exact absurd hps (components_ne_nil t)
  rw [List.concat_eq_append] at hmatch hclosing ⊢
  have ⟨ls, rs, hps, hfront, hg⟩ := pathMatch_append.mp hmatch
  by_cases hstars : g = kDoubleStar
  · subst hstars
    -- the closing `**` can be made to match something
    have ⟨lead, rest, ht, hne, hlead⟩ : ∃ lead rest, components t = lead ++ rest ∧ rest ≠ []
        ∧ PathMatch front lead := by
      by_cases hrs : rs = []
      · subst hrs
        rw [List.append_nil] at hps
        exact hclosing front rfl (hps ▸ hfront)
      · exact ⟨ls, rs, hps, hrs, hfront⟩
    have ⟨r, hr⟩ := exists_components ht hne
    exact cut_append hlead (by rw [ht, hr]) (.anyLast r)
  · cases hg with
    | any => exact absurd rfl hstars
    | @component _ p _ _ hne hmatchg hnil =>
        cases hnil
        have hp : '/' ∉ p :=
          unbroken_split '/' t p (by rw [← components, hps]; exact List.mem_append_right _ (by simp))
        exact cut_append hfront (by rw [hps, components_of_not_mem hp]) (.last hne hp hmatchg)

/-! ## §6. From cuts to components. -/

/-- Components without `**` are cut where they are matched. -/
theorem pathMatch_of_cut_append {gs hs : List Text} {t : Text} (hplain : ∀ g ∈ gs, g ≠ kDoubleStar)
    (hne : hs ≠ []) (hcut : Cut (gs ++ hs) t) :
    ∃ lead rest, components t = lead ++ components rest ∧ PathMatch gs lead ∧ Cut hs rest := by
  induction gs generalizing t with
  | nil => exact ⟨[], t, rfl, .nil, hcut⟩
  | cons g gs ih =>
      have hg := hplain g (List.mem_cons_self ..)
      have hrest : gs ++ hs ≠ [] := List.append_ne_nil_of_right_ne_nil gs hne
      generalize hall : gs ++ hs = all at hrest ih
      rw [List.cons_append, hall] at hcut
      cases hcut with
      | anyLast => exact absurd rfl hg
      | any => exact absurd rfl hg
      | last => exact absurd rfl hrest
      | @component _ u v _ _ hu hmatch hcut' =>
          have ⟨lead, rest, hv, hlead, hhs⟩ :=
            ih (fun x hx => hplain x (List.mem_cons_of_mem _ hx)) hcut'
          refine ⟨u :: lead, rest, ?_, .component hg hmatch hlead, hhs⟩
          rw [components, split_append_break, ← components, ← components,
            components_of_not_mem hu, hv]
          rfl

theorem componentMatch_star_append {g p : Text} (w : Text) (hw : '/' ∉ w)
    (h : ComponentMatch ('*' :: g) p) : ComponentMatch ('*' :: g) (w ++ p) := by
  cases h with
  | star u hu hrest =>
      rw [← List.append_assoc]
      exact .star (w ++ u) (fun hmem => (List.mem_append.mp hmem).elim hw hu) hrest
  | same _ hne => exact absurd rfl hne

/-- What begins with a star may as well begin where a component does. -/
theorem pathMatch_overhang {gs : List Text} {v : Text} (u : Text)
    (hmatch : PathMatch gs (components v))
    (hnot : ∀ front back, kDoubleStar :: gs = front ++ kDoubleStar :: back →
      startsWithStar back = false → ¬ PathMatch back (components v)) :
    PathMatch (kDoubleStar :: gs) (components (u ++ v)) := by
  induction gs with
  | nil =>
      generalize hps : components v = ps at hmatch
      cases hmatch
      exact absurd hps (components_ne_nil v)
  | cons g gs ih =>
      -- what follows the `**` begins with a star, which takes the rest of the component too
      have hstar : startsWithStar (g :: gs) = true := by
        by_contra hno
        exact hnot [] (g :: gs) rfl (by simpa using hno) hmatch
      generalize hps : components v = ps at hmatch
      cases hmatch with
      | @any _ ps qs hrest =>
          cases qs with
          | nil =>
              have hback := ih (by rw [hps]; exact hrest) fun front back hsplit =>
                hnot (kDoubleStar :: front) back (by rw [hsplit]; rfl)
              exact .any [] hback
          | cons q qs =>
              have ⟨front, w, huv, _⟩ := split_append_first '/' u hps
              rw [components, huv]
              have hall : PathMatch (kDoubleStar :: gs) ((front ++ (w ++ q) :: qs) ++ ps) :=
                .any _ hrest
              rw [List.append_assoc] at hall
              exact .any [] hall
      | @component _ p _ ps hne hg hrest =>
          have ⟨front, w, huv, hw⟩ := split_append_first '/' u hps
          rw [components, huv]
          refine .any front (.component hne ?_ hrest)
          cases g with
          | nil => cases hstar
          | cons c g =>
              by_cases hc : c = '*'
              · subst hc
                exact componentMatch_star_append w hw hg
              · exfalso
                rw [startsWithStar] at hstar
                · cases hstar
                · rintro g' gs' heq
                  cases heq
                  exact hc rfl

/-- A cut is a match, component by component, if nothing after a `**` matches an
end of the text that begins inside a component. -/
theorem pathMatch_of_cut {gs : List Text} {t : Text} (hcut : Cut gs t)
    (hnot : ∀ front back u c v, gs = front ++ kDoubleStar :: back → startsWithStar back = false →
      t = u ++ c :: v → c ≠ '/' → ¬ PathMatch back (components v)) :
    PathMatch gs (components t) := by
  induction hcut with
  | anyLast t =>
      have hall := PathMatch.any (components t) PathMatch.nil
      rwa [List.append_nil] at hall
  | @any gs v u hcut ih =>
      have hv := ih fun front back w c s hgs hstar hs =>
        hnot (kDoubleStar :: front) back (u ++ w) c s (by rw [hgs]; rfl) hstar
          (by rw [hs, List.append_assoc])
      rcases List.eq_nil_or_concat u with rfl | ⟨w, c, rfl⟩
      · exact .any [] hv
      · rw [List.concat_eq_append]
        -- does `**` end at a separator, or inside a component?
        by_cases hc : c = '/'
        · subst hc
          have hcut' : components (w ++ '/' :: v) = components w ++ components v :=
            split_append_break '/' w v
          rw [List.append_assoc, List.singleton_append, hcut']
          exact .any _ hv
        · refine pathMatch_overhang _ hv fun front back hgs hstar => ?_
          exact hnot front back w c v hgs hstar (by simp) hc
  | last hne hsep hmatch =>
      rw [components_of_not_mem hsep]
      exact .component hne hmatch .nil
  | @component g u v gs hne hu hmatch hcut ih =>
      have hv := ih fun front back w c s hgs hstar hs =>
        hnot (g :: front) back (u ++ '/' :: w) c s (by rw [hgs]; rfl) hstar (by rw [hs]; simp)
      have hcut' : components (u ++ '/' :: v) = components u ++ components v :=
        split_append_break '/' u v
      rw [hcut', components_of_not_mem hu]
      exact .component hne hmatch hv

/-! ## §7. A `**` inside a component. -/

theorem apart_cons {c : Char} {cs : Text} :
    apart (c :: cs) = true ↔ ¬ (c = '*' ∧ cs.head? = some '*') ∧ apart cs = true := by
  by_cases h : c = '*' ∧ cs.head? = some '*'
  · obtain ⟨rfl, hcs⟩ := h
    obtain ⟨ds, rfl⟩ := List.head?_eq_some_iff.mp hcs
    simp [apart]
  · rw [apart]
    · simp [h]
    · rintro rest rfl rfl
      exact h ⟨rfl, rfl⟩

theorem apart_of_append {x y : Text} (h : apart (x ++ y) = true) : apart x = true := by
  induction x with
  | nil => rfl
  | cons c x ih =>
      rw [List.cons_append, apart_cons] at h
      refine apart_cons.mpr ⟨?_, ih h.2⟩
      rintro ⟨hc, hx⟩
      exact h.1 ⟨hc, by rw [List.head?_append, hx]; rfl⟩

theorem getLast_of_apart {x : Text} (h : apart (x ++ ['*']) = true) : x.getLast? ≠ some '*' := by
  induction x with
  | nil => simp
  | cons c x ih =>
      rw [List.cons_append, apart_cons] at h
      cases x with
      | nil =>
          intro hc
          cases hc
          exact h.1 ⟨rfl, rfl⟩
      | cons d x =>
          rw [List.getLast?_cons_cons]
          exact ih h.2

theorem not_apart_stars (x y : Text) : apart (x ++ '*' :: '*' :: y) = false := by
  rw [← Bool.not_eq_true]
  intro h
  induction x with
  | nil => exact absurd h (by simp [apart])
  | cons c x ih =>
      rw [List.cons_append, apart_cons] at h
      exact ih h.2

/-- Neighbouring stars, and nothing of the kind before them. -/
theorem exists_stars {g : Text} (h : apart g = false) :
    ∃ x y, g = x ++ '*' :: '*' :: y ∧ apart (x ++ ['*']) = true := by
  induction g with
  | nil => cases h
  | cons c g ih =>
      by_cases hhere : c = '*' ∧ g.head? = some '*'
      · obtain ⟨rfl, hg⟩ := hhere
        obtain ⟨y, rfl⟩ := List.head?_eq_some_iff.mp hg
        exact ⟨[], y, rfl, rfl⟩
      · have hg : apart g = false := by
          rw [← Bool.not_eq_true] at h ⊢
          exact fun hg => h (apart_cons.mpr ⟨hhere, hg⟩)
        obtain ⟨x, y, rfl, hx⟩ := ih hg
        refine ⟨c :: x, y, rfl, apart_cons.mpr ⟨?_, hx⟩⟩
        rintro ⟨hc, hhead⟩
        apply hhere ⟨hc, ?_⟩
        cases x with
        | nil => rfl
        | cons d x => exact hhead

theorem Inside.not_doubleStar {gs front back : List Text} {x y : Text}
    (h : Inside gs front x y back) : x ++ '*' :: '*' :: y ≠ kDoubleStar := by
  intro heq
  have hlen := congrArg List.length heq
  simp only [List.length_append, List.length_cons, kDoubleStar, List.length_nil] at hlen
  rcases h.part with hx | hy
  · have := List.length_pos_iff.mpr hx
    omega
  · have := List.length_pos_iff.mpr hy
    omega

theorem Inside.not_wholeStars {gs front back : List Text} {x y : Text}
    (h : Inside gs front x y back) : ¬ WholeStars gs := by
  intro hwhole
  have hmem : x ++ '*' :: '*' :: y ∈ gs := by
    rw [h.split]
    exact List.mem_append_right _ (List.mem_cons_self ..)
  rcases hwhole _ hmem with heq | hapart
  · exact h.not_doubleStar heq
  · rw [not_apart_stars] at hapart
    cases hapart

theorem exists_inside {gs : List Text} (h : ¬ WholeStars gs) :
    ∃ front x y back, Inside gs front x y back := by
  induction gs with
  | nil => exact absurd (fun g hg => absurd hg List.not_mem_nil) h
  | cons g gs ih =>
      by_cases hg : g = kDoubleStar ∨ apart g = true
      · have hgs : ¬ WholeStars gs := by
          intro hgs
          apply h
          intro x hx
          rcases List.mem_cons.mp hx with rfl | hx
          · exact hg
          · exact hgs x hx
        obtain ⟨front, x, y, back, hinside⟩ := ih hgs
        refine ⟨g :: front, x, y, back, by rw [hinside.split]; rfl, ?_, hinside.first, hinside.part⟩
        intro f hf
        rcases List.mem_cons.mp hf with rfl | hf
        · exact hg
        · exact hinside.whole f hf
      · obtain ⟨hne, hapart⟩ := not_or.mp hg
        obtain ⟨x, y, rfl, hx⟩ := exists_stars (Bool.eq_false_iff.mpr hapart)
        refine ⟨[], x, y, gs, rfl, fun f hf => absurd hf List.not_mem_nil, hx, ?_⟩
        by_contra hno
        obtain ⟨rfl, rfl⟩ : x = [] ∧ y = [] := by
          constructor
          · by_contra hx
            exact hno (Or.inl hx)
          · by_contra hy
            exact hno (Or.inr hy)
        exact hne rfl

theorem eatSlash_join {y : Text} {back : List Text} (hy : '/' ∉ y) :
    eatSlash (join '/' (y :: back)) = join '/' (restOf y back) := by
  cases y with
  | nil =>
      by_cases hback : back = []
      · subst hback
        rfl
      · rw [restOf, if_pos ⟨rfl, hback⟩, join_cons '/' _ hback]
        rfl
  | cons c y =>
      have hc : ¬ c = '/' := fun heq => hy (heq ▸ List.mem_cons_self ..)
      rw [restOf, if_neg (by simp)]
      have hjoin := join_cons_append '/' [c] y back
      rw [List.singleton_append] at hjoin
      rw [hjoin, List.singleton_append, eatSlash, if_neg hc]

/-- The matcher at a `**` inside a component: what precedes it is cut, and the
rest matches any end of what is left. -/
theorem globMatch_inside {gs front back : List Text} {x y t : Text} (h : Inside gs front x y back)
    (hsep : ∀ g ∈ gs, '/' ∉ g) :
    globMatch (join '/' gs) t = true ↔
      ∃ u w v, t = u ++ (w ++ v) ∧ Cut (front ++ [x]) u
        ∧ globMatch (join '/' (restOf y back)) v = true := by
  obtain ⟨rfl, hwhole, hfirst, -⟩ := h
  have hx : x ≠ kDoubleStar := by
    rintro rfl
    cases hfirst
  induction front generalizing t with
  | nil =>
      have hmem := hsep _ (List.mem_cons_self ..)
      have hxsep : '/' ∉ x := fun hx => hmem (List.mem_append_left _ hx)
      have hysep : '/' ∉ y := fun hy => hmem (List.mem_append_right _ (by simp [hy]))
      have hjoin : join '/' ((x ++ '*' :: '*' :: y) :: back)
          = x ++ '*' :: '*' :: join '/' (y :: back) := by
        rw [join_cons_append]
        exact congrArg (x ++ ·) (join_cons_append '/' ['*', '*'] y back)
      rw [List.nil_append, hjoin, globMatch_component hxsep (apart_of_append hfirst)
        fun hlast => absurd hlast (getLast_of_apart hfirst)]
      simp only [globMatch_doubleStar, eatSlash_join hysep, List.nil_append, cut_singleton hx]
      constructor
      · rintro ⟨u, s, rfl, hu, hmatch, w, v, rfl, hv⟩
        exact ⟨u, w, v, rfl, ⟨hu, hmatch⟩, hv⟩
      · rintro ⟨u, w, v, rfl, ⟨hu, hmatch⟩, hv⟩
        exact ⟨u, w ++ v, rfl, hu, hmatch, w, v, rfl, hv⟩
  | cons g front ih =>
      have hwhole' : WholeStars front := fun f hf => hwhole f (List.mem_cons_of_mem _ hf)
      have hsep' : ∀ f ∈ front ++ (x ++ '*' :: '*' :: y) :: back, '/' ∉ f :=
        fun f hf => hsep f (List.mem_cons_of_mem _ hf)
      rw [List.cons_append, globMatch_cons (by simp) (hsep g (List.mem_cons_self ..))
        (hwhole g (List.mem_cons_self ..))]
      simp only [ih hwhole' hsep', List.cons_append, cut_cons (show front ++ [x] ≠ [] by simp)]
      constructor
      · rintro ⟨s, hs, u, w, v, rfl, hcut, hv⟩
        rcases hs with ⟨rfl, a, rfl⟩ | ⟨hne, a, rfl, ha, hmatch⟩
        · exact ⟨a ++ u, w, v, by simp, ⟨u, Or.inl ⟨rfl, a, rfl⟩, hcut⟩, hv⟩
        · exact ⟨a ++ '/' :: u, w, v, by simp, ⟨u, Or.inr ⟨hne, a, rfl, ha, hmatch⟩, hcut⟩, hv⟩
      · rintro ⟨u, w, v, rfl, ⟨s, hs, hcut⟩, hv⟩
        refine ⟨s ++ (w ++ v), ?_, s, w, v, rfl, hcut, hv⟩
        rcases hs with ⟨rfl, a, rfl⟩ | ⟨hne, a, rfl, ha, hmatch⟩
        · exact Or.inl ⟨rfl, a, by simp⟩
        · exact Or.inr ⟨hne, a, by simp, ha, hmatch⟩

/-- Without neighbouring stars the matcher does what the header says. -/
theorem globMatch_iff_pathMatch {gs : List Text} {t : Text} (hne : gs ≠ [])
    (hapart : ∀ g ∈ gs, apart g = true) (hsep : ∀ g ∈ gs, '/' ∉ g) :
    globMatch (join '/' gs) t = true ↔ PathMatch gs (components t) := by
  have hplain : kDoubleStar ∉ gs := fun hmem => absurd (hapart _ hmem) (by decide)
  rw [globMatch_iff_cut hne (fun g hg => Or.inr (hapart g hg)) hsep]
  constructor
  · intro hcut
    refine pathMatch_of_cut hcut fun front back u c v hsplit => ?_
    exact absurd (hsplit ▸ List.mem_append_right _ (List.mem_cons_self ..)) hplain
  · intro hmatch
    refine cut_of_pathMatch hmatch fun front hsplit => ?_
    exact absurd (hsplit ▸ List.mem_append_right _ (List.mem_singleton_self _)) hplain

theorem componentMatch_append {a b p : Text} (h : ComponentMatch (a ++ b) p) :
    ∃ q r, p = q ++ r ∧ ComponentMatch a q ∧ ComponentMatch b r := by
  induction a generalizing p with
  | nil => exact ⟨[], p, rfl, .nil, h⟩
  | cons c a ih =>
      cases h with
      | star u hu hrest =>
          obtain ⟨q, r, rfl, hq, hr⟩ := ih hrest
          exact ⟨u ++ q, r, by rw [List.append_assoc], .star u hu hq, hr⟩
      | one d hd hrest =>
          obtain ⟨q, r, rfl, hq, hr⟩ := ih hrest
          exact ⟨d :: q, r, rfl, .one d hd hq, hr⟩
      | same _ hstar hone hrest =>
          obtain ⟨q, r, rfl, hq, hr⟩ := ih hrest
          exact ⟨c :: q, r, rfl, .same c hstar hone hq, hr⟩

/-- Two stars in a component take what lies between. -/
theorem componentMatch_stars {x y p : Text} (h : ComponentMatch (x ++ '*' :: '*' :: y) p) :
    ∃ a w b, p = a ++ (w ++ b) ∧ ComponentMatch x a ∧ ComponentMatch y b := by
  obtain ⟨a, r, rfl, ha, hr⟩ := componentMatch_append h
  cases hr with
  | star u _ hrest =>
      cases hrest with
      | star w _ hy => exact ⟨a, u ++ w, _, by rw [List.append_assoc], ha, hy⟩
      | same _ hne => exact absurd rfl hne
  | same _ hne => exact absurd rfl hne

/-- The text up to where the last components begin. -/
theorem components_lead {t r : Text} {lead : List Text}
    (h : components t = lead ++ components r) :
    ∃ m, t = m ++ r ∧ ∀ s, '/' ∉ s → components (m ++ s) = lead ++ components s := by
  have hlead : ∀ l ∈ lead, '/' ∉ l := fun l hl =>
    unbroken_split '/' t l (by rw [← components, h]; exact List.mem_append_left _ hl)
  refine ⟨lead.flatMap fun l => l ++ ['/'], ?_, ?_⟩
  · have hjoin := join_split '/' t
    rw [← components, h, join_append '/' (components_ne_nil r)] at hjoin
    rw [← hjoin, components, join_split]
  · intro s hs
    have hjoin : join '/' (lead ++ components s) = _ := join_append '/' (components_ne_nil s)
    rw [components, join_split] at hjoin
    rw [← hjoin, components]
    refine split_join '/' (by simp [split_ne_nil]) fun l hl => ?_
    exact (List.mem_append.mp hl).elim (hlead l) (unbroken_split '/' s l)

/-- A path that matches is cut up to the `**`, and what follows it matches an end. -/
theorem inside_of_pathMatch {gs front back : List Text} {x y t : Text}
    (h : Inside gs front x y back) (hmatch : PathMatch gs (components t)) :
    ∃ u s, t = u ++ s ∧ Cut (front ++ [x]) u ∧ ((∀ g ∈ restOf y back, apart g = true) →
      ∃ w v, s = w ++ v ∧ PathMatch (restOf y back) (components v)) := by
  have hx : x ≠ kDoubleStar := by
    rintro rfl
    cases h.first
  rw [h.split] at hmatch
  obtain ⟨lead, rs, ht, hlead, hrs⟩ := pathMatch_append.mp hmatch
  generalize hg : x ++ '*' :: '*' :: y = g at hrs
  cases hrs with
  | any => exact absurd hg h.not_doubleStar
  | @component _ p _ ps _ hp hback =>
      subst hg
      obtain ⟨a, w, b, rfl, ha, hb⟩ := componentMatch_stars hp
      have hpsep : '/' ∉ a ++ (w ++ b) :=
        unbroken_split '/' t _ (by rw [← components, ht]; exact List.mem_append_right _ (by simp))
      simp only [List.mem_append, not_or] at hpsep
      obtain ⟨r, hr⟩ := exists_components ht (List.cons_ne_nil _ _)
      rw [← hr] at ht
      obtain ⟨m, rfl, hm⟩ := components_lead ht
      have hcut : Cut (front ++ [x]) (m ++ a) :=
        cut_append hlead (hm a hpsep.1) (.last hx hpsep.1 ha)
      -- is there a component behind the one with the `**`?
      by_cases hps : ps = []
      · subst hps
        have hrjoin : r = a ++ (w ++ b) := by
          have hjoin := join_split '/' r
          rw [← components, hr] at hjoin
          exact hjoin.symm
        subst hrjoin
        refine ⟨m ++ a, w ++ b, by simp, hcut, fun hapart => ?_⟩
        by_cases hrest : y = [] ∧ back ≠ []
        · rw [restOf, if_pos hrest] at hapart
          -- something stands behind, and it matches no component at all
          generalize hnil : ([] : List Text) = ps at hback
          cases hback with
          | nil => exact absurd rfl hrest.2
          | any => exact absurd (hapart _ (List.mem_cons_self ..)) (by decide)
          | component => cases hnil
        · rw [restOf, if_neg hrest] at hapart ⊢
          have hy : y ≠ kDoubleStar := by
            rintro rfl
            exact absurd (hapart _ (List.mem_cons_self ..)) (by decide)
          exact ⟨w, b, rfl, by rw [components_of_not_mem hpsep.2.2]; exact .component hy hb hback⟩
      · obtain ⟨v, rfl, -, hv⟩ := components_eq_cons hr hps
        refine ⟨m ++ a, w ++ (b ++ '/' :: v), by simp, hcut, fun hapart => ?_⟩
        by_cases hrest : y = [] ∧ back ≠ []
        · rw [restOf, if_pos hrest]
          exact ⟨w ++ (b ++ ['/']), v, by simp, hv ▸ hback⟩
        · rw [restOf, if_neg hrest] at hapart ⊢
          have hy : y ≠ kDoubleStar := by
            rintro rfl
            exact absurd (hapart _ (List.mem_cons_self ..)) (by decide)
          refine ⟨w, b ++ '/' :: v, rfl, ?_⟩
          have hsplit : components (b ++ '/' :: v) = components b ++ components v :=
            split_append_break '/' b v
          rw [hsplit, components_of_not_mem hpsep.2.2, hv]
          exact .component hy hb hback

theorem restOf_ne_nil (y : Text) (back : List Text) : restOf y back ≠ [] := by
  rw [restOf]
  split
  · next h => exact h.2
  · exact List.cons_ne_nil _ _

theorem Inside.separator {gs front back : List Text} {x y : Text} (h : Inside gs front x y back)
    (hsep : ∀ g ∈ gs, '/' ∉ g) : ∀ g ∈ restOf y back, '/' ∉ g := by
  rw [h.split] at hsep
  intro g hg
  have hg' : g ∈ y :: back := by
    rw [restOf] at hg
    split at hg
    · exact List.mem_cons_of_mem _ hg
    · exact hg
  rcases List.mem_cons.mp hg' with rfl | hback
  · intro hmem
    exact hsep _ (List.mem_append_right _ (List.mem_cons_self ..)) (List.mem_append_right _ (by simp [hmem]))
  · exact hsep g (List.mem_append_right _ (List.mem_cons_of_mem _ hback))

theorem globMatch_iff_of_inside {gs front back : List Text} {x y t : Text}
    (hinside : Inside gs front x y back) (hsep : ∀ g ∈ gs, '/' ∉ g) (h : Aligned gs t) :
    globMatch (join '/' gs) t = true ↔ PathMatch gs (components t) := by
  have hrest {v : Text} (hapart : ∀ g ∈ restOf y back, apart g = true) :=
    globMatch_iff_pathMatch (t := v) (restOf_ne_nil y back) hapart (hinside.separator hsep)
  rw [globMatch_inside hinside hsep]
  constructor
  · rintro ⟨u, w, v, ht, hcut, hv⟩
    obtain ⟨hapart, hwhole⟩ := h.inside _ _ _ _ _ _ _ hinside ht hcut
    exact hwhole ((hrest hapart).mp hv)
  · intro hmatch
    obtain ⟨u, s, rfl, hcut, hend⟩ := inside_of_pathMatch hinside hmatch
    have hapart := (h.inside _ _ _ _ u [] s hinside rfl hcut).1
    obtain ⟨w, v, rfl, hv⟩ := hend hapart
    exact ⟨u, w, v, rfl, hcut, (hrest hapart).mpr hv⟩

/-! ## §8. The header's matching and the matcher's. -/

theorem plainHead_append_fromDoubleStar (gs : List Text) :
    plainHead gs ++ fromDoubleStar gs = gs :=
  List.takeWhile_append_dropWhile

theorem plain_of_mem_plainHead {gs : List Text} : ∀ g ∈ plainHead gs, g ≠ kDoubleStar := by
  intro g hg
  have hp := List.mem_takeWhile_imp hg
  simpa using hp

theorem pathMatch_iff_cut {gs : List Text} {t : Text} (hwhole : WholeStars gs) (h : Aligned gs t) :
    Cut gs t ↔ PathMatch gs (components t) := by
  constructor
  · intro hcut
    by_contra hno
    apply hno
    -- without `**` a cut is a match
    by_cases htail : fromDoubleStar gs = []
    · have hgs := plainHead_append_fromDoubleStar gs
      rw [htail, List.append_nil] at hgs
      refine pathMatch_of_cut hcut fun front back u c v hsplit => ?_
      have hmem : kDoubleStar ∈ plainHead gs := by
        rw [hgs, hsplit]
        exact List.mem_append_right _ (List.mem_cons_self ..)
      exact absurd rfl (plain_of_mem_plainHead _ hmem)
    · rw [← plainHead_append_fromDoubleStar gs] at hcut
      have ⟨lead, rest, ht, hlead, hrest⟩ :=
        pathMatch_of_cut_append plain_of_mem_plainHead htail hcut
      have htail' := pathMatch_of_cut hrest fun front back u c v hsplit hstar hu hc hback =>
        hno (h.overhang hwhole lead rest front back u c v ht hlead hsplit hstar hu hc hback)
      rw [← plainHead_append_fromDoubleStar gs, ht]
      exact pathMatch_append.mpr ⟨lead, components rest, rfl, hlead, htail'⟩
  · intro hmatch
    exact cut_of_pathMatch hmatch (h.closing hwhole)

/-- With one `**` at most, and that a whole component, nothing else makes them agree. -/
theorem aligned_of_iff_cut {gs : List Text} {t : Text} (hwhole : WholeStars gs)
    (hone : gs.count kDoubleStar ≤ 1) (h : Cut gs t ↔ PathMatch gs (components t)) :
    Aligned gs t := by
  refine ⟨fun _ _ _ _ _ _ _ hinside => absurd hwhole hinside.not_wholeStars, ?_, ?_⟩
  · intro _ lead rest front back u c v ht hlead htail hstar hu hc hback
    apply h.mp
    have hcount : (fromDoubleStar gs).count kDoubleStar ≤ 1 := by
      rw [← plainHead_append_fromDoubleStar gs, List.count_append] at hone
      omega
    rw [htail] at hcount
    simp only [List.count_append, List.count_cons_self] at hcount
    -- the only `**` is the one in front
    have hplain : kDoubleStar ∉ back := List.count_eq_zero.mp (by omega)
    have hfront : front = [] := by
      cases front with
      | nil => rfl
      | cons f fs =>
          have hf : f = kDoubleStar := by
            have hhead : (fromDoubleStar gs).head? = some f := by rw [htail]; rfl
            have hnot := List.head?_dropWhile_not (fun g => decide (g ≠ kDoubleStar)) gs
            rw [fromDoubleStar] at hhead
            rw [hhead] at hnot
            simpa using hnot
          rw [hf, List.count_cons_self] at hcount
          omega
    subst hfront
    have hcutBack : Cut back v := cut_of_pathMatch hback fun front hsplit => by
      exact absurd (hsplit ▸ List.mem_append_right _ (List.mem_singleton_self _)) hplain
    -- so the matcher would let it end inside the component
    have hcutRest : Cut (kDoubleStar :: back) rest := by
      rw [hu]
      have := Cut.any (u ++ [c]) hcutBack
      simpa using this
    have hcut := cut_append hlead ht hcutRest
    rwa [← List.nil_append (kDoubleStar :: back), ← htail, plainHead_append_fromDoubleStar] at hcut
  · intro _ front hgs hfront
    have hplain : ∀ g ∈ front, g ≠ kDoubleStar := by
      rintro g hg rfl
      have := List.count_pos_iff.mpr hg
      rw [hgs, List.count_append, List.count_singleton_self] at hone
      omega
    have hmatch : PathMatch gs (components t) := by
      rw [hgs]
      exact pathMatch_append.mpr ⟨components t, [], by simp, hfront, .any [] .nil⟩
    have hcut := h.mpr hmatch
    rw [hgs] at hcut
    have ⟨lead, rest, ht, hlead, _⟩ := pathMatch_of_cut_append hplain (by simp) hcut
    exact ⟨lead, components rest, ht, components_ne_nil rest, hlead⟩

theorem pathGlobMatch_eq (glob path : Text) :
    pathGlobMatch glob path = globMatch (join '/' (globComponents glob)) (normaliseSeparators path) := by
  rw [globComponents, components, join_split]
  rfl

theorem globComponents_separator (glob : Text) : ∀ g ∈ globComponents glob, '/' ∉ g :=
  unbroken_split '/' _

theorem pathGlobMatch_iff_cut {glob path : Text} (hwhole : WholeStars (globComponents glob)) :
    pathGlobMatch glob path = true
      ↔ Cut (globComponents glob) (normaliseSeparators path) := by
  rw [pathGlobMatch_eq]
  exact globMatch_iff_cut (components_ne_nil _) hwhole (globComponents_separator glob)

/-- **The matcher does what the header says** on every glob and path that keep
`**` to whole components; if no `**` stands behind one inside a component, and no
two are whole components, on no other path. -/
theorem pathGlobMatch_iff (glob path : Text) :
    (Aligned (globComponents glob) (normaliseSeparators path) →
      (pathGlobMatch glob path = true ↔ Matches glob path)) ∧
    (Once (globComponents glob) → (pathGlobMatch glob path = true ↔ Matches glob path) →
      Aligned (globComponents glob) (normaliseSeparators path)) := by
  by_cases hwhole : WholeStars (globComponents glob)
  · rw [pathGlobMatch_iff_cut hwhole]
    constructor
    · exact fun h => pathMatch_iff_cut hwhole h
    · exact fun honce h => aligned_of_iff_cut hwhole (honce.whole hwhole) h
  · have hsep := globComponents_separator glob
    rw [pathGlobMatch_eq]
    constructor
    · obtain ⟨front, x, y, back, hinside⟩ := exists_inside hwhole
      exact fun h => globMatch_iff_of_inside hinside hsep h
    · intro honce h
      refine ⟨?_, fun hno => absurd hno hwhole, fun hno => absurd hno hwhole⟩
      intro front x y back u w v hinside ht hcut
      have hapart := honce.inside _ _ _ _ hinside
      refine ⟨hapart, fun hrest => h.mp ((globMatch_inside hinside hsep).mpr ?_)⟩
      refine ⟨u, w, v, ht, hcut, ?_⟩
      exact (globMatch_iff_pathMatch (restOf_ne_nil y back) hapart (hinside.separator hsep)).mpr hrest

theorem pathGlobMatch_iff_extension :
    pathGlobMatch "**/*.hlsl".toList "foo.hlsl".toList = true
      ↔ Matches "**/*.hlsl".toList "foo.hlsl".toList := by
  have hgs : globComponents "**/*.hlsl".toList = [kDoubleStar, "*.hlsl".toList] := by decide
  have htail : fromDoubleStar [kDoubleStar, "*.hlsl".toList] = [kDoubleStar, "*.hlsl".toList] := by
    decide
  apply (pathGlobMatch_iff _ _).1
  rw [hgs]
  refine ⟨?_, ?_, ?_⟩
  · intro front x y back u w v hinside
    exact absurd (by decide) hinside.not_wholeStars
  · intro _ lead rest front back u c v _ _ hsplit hstar
    rw [htail] at hsplit
    match front, hsplit with
    | [], hsplit =>
        cases hsplit
        cases hstar
    | [_], hsplit => cases hsplit
    | _ :: _ :: _, hsplit => simp at hsplit
  · intro _ front hsplit
    match front, hsplit with
    | [], hsplit => cases hsplit
    | [_], hsplit => cases hsplit
    | _ :: _ :: _, hsplit => simp at hsplit

/-- `**/foo` matches `xfoo`, which has no component `foo`. -/
theorem doubleStar_inside_component :
    ¬ ∀ glob path : Text, pathGlobMatch glob path = true ↔ Matches glob path := by
  intro h
  have hgs : globComponents "**/foo".toList = [kDoubleStar, "foo".toList] := by decide
  have hps : components (normaliseSeparators "xfoo".toList) = ["xfoo".toList] := by decide
  have hfoo : ComponentMatch "foo".toList "foo".toList :=
    .same 'f' (by decide) (by decide) (.same 'o' (by decide) (by decide)
      (.same 'o' (by decide) (by decide) .nil))
  have hcode : pathGlobMatch "**/foo".toList "xfoo".toList = true := by
    rw [pathGlobMatch_iff_cut (by rw [hgs]; decide), hgs]
    exact .any ['x'] (.last (by decide) (by decide) hfoo)
  have hmatch := (h _ _).mp hcode
  rw [Matches, hgs, hps, ← List.singleton_append] at hmatch
  have ⟨ls, rs, hlr, _, hrs⟩ := pathMatch_append.mp hmatch
  cases hrs with
  | @component _ p _ _ _ hp hnil =>
      cases hnil
      have hlast := congrArg List.getLast? hlr
      rw [List.getLast?_append_cons] at hlast
      cases hlast
      cases hp

end ShaderClippy.Config
