/-
  ShaderClippy.Lib.LexicalPath

  **PATHS AS TEXT**: what `lexically_normal`, `parent_path` and
  `lexically_relative` of the standard library do with a path, for the names of
  one system only (`/` separates, there are no drives).

  A path is its elements: the root, the names, and one empty element behind a
  trailing separator. The normal form takes back every name before a `..`, so a
  `..` is left in front only, and under the root there is none
  (`normalNames_clean`, `normal_normal`). Of two paths under the root one is inside
  of the other exactly if its names go on from those of the other (`inside_iff`).
-/
import Mathlib.Data.List.Basic

namespace ShaderClippy.LexicalPath

/-! ## §1. Paths. -/

abbrev Name := List Char

def dot : Name := ['.']

def dotdot : Name := ['.', '.']

structure Path where
  rooted : Bool
  names : List Name
  trailing : Bool
  deriving Repr, DecidableEq

/-- The path of a text; empty names between separators do not count. -/
def Path.ofText (s : List Char) : Path :=
  let names := (s.splitOn '/').filter fun n => !n.isEmpty
  ⟨s.head? == some '/', names, s.getLast? == some '/' && !names.isEmpty⟩

/-- The text of a path. -/
def Path.text (p : Path) : List Char :=
  (if p.rooted then ['/'] else []) ++ (['/'].intercalate p.names ++ if p.trailing then ['/'] else [])

namespace Path

/-- `empty`. -/
def isEmpty (p : Path) : Bool := !p.rooted && p.names.isEmpty

/-- The elements one iterates over. -/
def elements (p : Path) : List Name :=
  (if p.rooted then [['/']] else []) ++ (p.names ++ if p.trailing then [[]] else [])

/-- `parent_path`: without the last element, unless that is the root. -/
def parent (p : Path) : Path :=
  if p.trailing then { p with trailing := false } else { p with names := p.names.dropLast }

end Path

/-! ## §2. The normal form. -/

/-- One name more on the names so far, the last one first. -/
def step (rooted : Bool) (stack : List Name) (n : Name) : List Name :=
  if n = dot then stack
  else if n = dotdot then
    match stack with
    | [] => if rooted then [] else [dotdot]
    | top :: rest => if top = dotdot then dotdot :: top :: rest else rest
  else n :: stack

/-- The names of the normal form. -/
def normalNames (rooted : Bool) (names : List Name) : List Name := (names.foldl (step rooted) []).reverse

/-- The last name is one that leads to a directory. -/
def endsOpen (names : List Name) : Bool :=
  match names.getLast? with
  | none => false
  | some n => decide (n = dot ∨ n = dotdot)

/-- `lexically_normal`. -/
def Path.normal (p : Path) : Path :=
  let names := normalNames p.rooted p.names
  if names = [] then
    if p.rooted || p.names.isEmpty then ⟨p.rooted, [], false⟩ else ⟨false, [dot], false⟩
  else ⟨p.rooted, names, (p.trailing || endsOpen p.names) && decide (names.getLast? ≠ some dotdot)⟩

/-- The names of a normal form: no `.`, and `..` in front only, where no root is. -/
structure Clean (rooted : Bool) (names : List Name) : Prop where
  proper : ∀ n ∈ names, n ≠ [] ∧ n ≠ dot
  front : ∃ k rest, names = List.replicate k dotdot ++ rest ∧ dotdot ∉ rest ∧ (rooted = true → k = 0)

theorem Clean.not_dotdot {names : List Name} (h : Clean true names) : dotdot ∉ names := by
  obtain ⟨k, rest, rfl, hrest, hk⟩ := h.front
  rw [hk rfl]
  exact hrest

/-- The shape of a stack of names, the last one first. -/
theorem clean_reverse {rooted : Bool} {stack : List Name} :
    Clean rooted stack.reverse ↔ (∀ n ∈ stack, n ≠ [] ∧ n ≠ dot) ∧
      ∃ k rest, stack = rest ++ List.replicate k dotdot ∧ dotdot ∉ rest ∧ (rooted = true → k = 0) := by
  constructor
  · rintro ⟨hproper, k, rest, hfront, hrest, hk⟩
    refine ⟨fun n hn => hproper n (List.mem_reverse.mpr hn), k, rest.reverse, ?_, by simpa using hrest, hk⟩
    rw [← List.reverse_reverse stack, hfront, List.reverse_append, List.reverse_replicate]
  · rintro ⟨hproper, k, rest, rfl, hrest, hk⟩
    refine ⟨fun n hn => hproper n (List.mem_reverse.mp hn), k, rest.reverse, ?_, by simpa using hrest, hk⟩
    rw [List.reverse_append, List.reverse_replicate]

/-- A step keeps the shape. -/
theorem clean_step {rooted : Bool} {stack : List Name} {n : Name} (h : Clean rooted stack.reverse) (hn : n ≠ []) :
    Clean rooted (step rooted stack n).reverse := by
  obtain ⟨hproper, k, rest, rfl, hrest, hk⟩ := clean_reverse.mp h
  rw [clean_reverse]
  unfold step
  split
  case isTrue => exact ⟨hproper, k, rest, rfl, hrest, hk⟩
  case isFalse hdot =>
  split
  case isFalse hup =>
    -- a proper name goes on top
    refine ⟨List.forall_mem_cons.mpr ⟨⟨hn, hdot⟩, hproper⟩, k, n :: rest, rfl, ?_, hk⟩
    rw [List.mem_cons, not_or]
    exact ⟨Ne.symm hup, hrest⟩
  case isTrue hup =>
    cases rest with
    | cons top rest =>
        -- a proper name is taken back
        have htop : top ≠ dotdot := fun heq => hrest (by rw [heq]; exact List.mem_cons_self)
        show (∀ m ∈ if top = dotdot then dotdot :: top :: (rest ++ _) else rest ++ _, _) ∧ _
        rw [if_neg htop]
        exact ⟨fun m hm => hproper m (List.mem_cons_of_mem _ hm), k, rest, if_neg htop,
          fun hmem => hrest (List.mem_cons_of_mem _ hmem), hk⟩
    | nil =>
        cases k with
        | zero =>
            cases rooted with
            | true => exact ⟨nofun, 0, [], rfl, List.not_mem_nil, fun _ => rfl⟩
            | false => exact ⟨by decide, 1, [], rfl, List.not_mem_nil, nofun⟩
        | succ k =>
            have hroot : rooted = false := by
              rw [← Bool.not_eq_true]
              intro hr
              exact absurd (hk hr) (Nat.succ_ne_zero k)
            refine ⟨?_, k + 2, [], rfl, List.not_mem_nil, ?_⟩
            · intro m hm
              rw [List.eq_of_mem_replicate (n := k + 2) hm]
              decide
            · rw [hroot]
              exact nofun

/-- **The names of a normal form** are clean. -/
theorem normalNames_clean {rooted : Bool} {names : List Name} (h : ∀ n ∈ names, n ≠ []) :
    Clean rooted (normalNames rooted names) := by
  have hrun : ∀ {stack : List Name}, Clean rooted stack.reverse →
      Clean rooted (names.foldl (step rooted) stack).reverse := by
    induction names with
    | nil => exact id
    | cons n names ih =>
        intro stack hstack
        have hnames := List.forall_mem_cons.mp h
        exact ih hnames.2 (clean_step hstack hnames.1)
  exact hrun ⟨nofun, 0, [], rfl, List.not_mem_nil, fun _ => rfl⟩

/-- Proper names are pushed. -/
theorem foldl_proper {rooted : Bool} {names stack : List Name} (hdot : dot ∉ names) (hup : dotdot ∉ names) :
    names.foldl (step rooted) stack = names.reverse ++ stack := by
  induction names generalizing stack with
  | nil => rfl
  | cons n names ih =>
      rw [List.mem_cons, not_or] at hdot hup
      have hstep : step rooted stack n = n :: stack := by
        unfold step
        rw [if_neg (Ne.symm hdot.1), if_neg (Ne.symm hup.1)]
      rw [List.foldl_cons, hstep, ih hdot.2 hup.2, List.reverse_cons, List.append_assoc]
      rfl

/-- Where no root is, the `..` in front are pushed as well. -/
theorem foldl_front (k : Nat) :
    (List.replicate k dotdot).foldl (step false) [] = List.replicate k dotdot := by
  induction k with
  | zero => rfl
  | succ k ih =>
      rw [List.replicate_succ', List.foldl_append, ih]
      cases k with
      | zero => rfl
      | succ k => exact (List.replicate_succ' (n := k + 1)).symm ▸ rfl

/-- Clean names are left as they are. -/
theorem normalNames_of_clean {rooted : Bool} {names : List Name} (h : Clean rooted names) :
    normalNames rooted names = names := by
  obtain ⟨k, rest, rfl, hrest, hk⟩ := h.front
  have hdot : dot ∉ rest := fun hmem => (h.proper dot (List.mem_append_right _ hmem)).2 rfl
  unfold normalNames
  cases rooted with
  | true =>
      rw [hk rfl]
      show ((rest.foldl (step true) []).reverse = rest)
      rw [foldl_proper hdot hrest, List.append_nil, List.reverse_reverse]
  | false =>
      rw [List.foldl_append, foldl_front, foldl_proper hdot hrest, List.reverse_append, List.reverse_reverse,
        List.reverse_replicate]

/-- A path whose names are those of a text. -/
structure Path.Proper (p : Path) : Prop where
  names : ∀ n ∈ p.names, n ≠ []
  trailing : p.trailing = true → p.names ≠ []

theorem ofText_proper (s : List Char) : (Path.ofText s).Proper where
  names := by
    intro n hn
    have hne := (List.mem_filter.mp hn).2
    intro hnil
    rw [hnil] at hne
    cases hne
  trailing := by
    intro h hnil
    have hne := (Bool.and_eq_true_iff.mp h).2
    rw [show (Path.ofText s).names = (s.splitOn '/').filter fun n => !n.isEmpty from rfl] at hnil
    rw [hnil] at hne
    cases hne

theorem parent_rooted (p : Path) : p.parent.rooted = p.rooted := by
  unfold Path.parent
  split <;> rfl

theorem parent_proper {p : Path} (h : p.Proper) : p.parent.Proper := by
  unfold Path.parent
  split
  case isTrue => exact ⟨h.names, nofun⟩
  case isFalse hopen => exact ⟨fun n hn => h.names n (List.dropLast_subset _ hn), fun ht => absurd ht hopen⟩

theorem normal_nil {p : Path} (h : normalNames p.rooted p.names = []) :
    p.normal = if p.rooted || p.names.isEmpty then ⟨p.rooted, [], false⟩ else ⟨false, [dot], false⟩ := by
  unfold Path.normal
  exact if_pos h

theorem normal_names {p : Path} (h : normalNames p.rooted p.names ≠ []) :
    p.normal = ⟨p.rooted, normalNames p.rooted p.names,
      (p.trailing || endsOpen p.names) && decide ((normalNames p.rooted p.names).getLast? ≠ some dotdot)⟩ := by
  unfold Path.normal
  exact if_neg h

theorem normal_proper {p : Path} (h : p.Proper) : p.normal.Proper := by
  by_cases hnil : normalNames p.rooted p.names = []
  · rw [normal_nil hnil]
    split
    · exact ⟨nofun, nofun⟩
    · exact ⟨by decide, nofun⟩
  · rw [normal_names hnil]
    exact ⟨fun n hn => ((normalNames_clean h.names).proper n hn).1, fun _ => hnil⟩

/-- Clean names end in a `..` or in no open name. -/
theorem endsOpen_of_clean {rooted : Bool} {names : List Name} (h : Clean rooted names)
    (hlast : names.getLast? ≠ some dotdot) : endsOpen names = false := by
  unfold endsOpen
  cases hget : names.getLast? with
  | none => rfl
  | some n =>
      rw [hget] at hlast
      have hmem : n ∈ names := List.mem_of_getLast? hget
      exact decide_eq_false fun hor => hor.elim (h.proper n hmem).2 fun hup => hlast (by rw [hup])

/-- **A normal form is its own normal form.** -/
theorem normal_normal {p : Path} (h : p.Proper) : p.normal.normal = p.normal := by
  have hclean : Clean p.rooted (normalNames p.rooted p.names) := normalNames_clean h.names
  have hsame := normalNames_of_clean hclean
  by_cases hnil : normalNames p.rooted p.names = []
  · rw [normal_nil hnil]
    split
    · rw [normal_nil rfl]
      simp
    · rfl
  · rw [normal_names hnil]
    have hagain := normal_names (p := ⟨p.rooted, normalNames p.rooted p.names,
      (p.trailing || endsOpen p.names) && decide ((normalNames p.rooted p.names).getLast? ≠ some dotdot)⟩)
      (by rw [hsame]; exact hnil)
    rw [hagain]
    dsimp only
    rw [hsame]
    by_cases hlast : (normalNames p.rooted p.names).getLast? = some dotdot
    · simp [hlast]
    · rw [endsOpen_of_clean hclean hlast]
      simp [hlast]

/-! ## §3. One path inside of another. -/

/-- `mismatch`: what is left of two lists behind what they have in common. -/
def mismatch {α : Type} [DecidableEq α] : List α → List α → List α × List α
  | a :: as, b :: bs => if a = b then mismatch as bs else (a :: as, b :: bs)
  | as, bs => (as, bs)

/-- How far down the names lead. -/
def depth : List Name → Int
  | [] => 0
  | n :: ns => (if n = dotdot then -1 else if n = [] ∨ n = dot then 0 else 1) + depth ns

/-- The first element of `lexically_relative`, if the path is not empty. -/
def relativeHead (child parent : Path) : Option Name :=
  if child.rooted ≠ parent.rooted then none
  else
    let rest := mismatch child.elements parent.elements
    let n := depth rest.2
    if rest.1 = [] ∧ rest.2 = [] then some dot
    else if n = 0 ∧ (rest.1.head? = none ∨ rest.1.head? = some []) then some dot
    else if n < 0 then none
    else if 0 < n then some dotdot
    else rest.1.head?

/-- The relative path from the one to the other does not begin with a `..`. -/
def inside (child parent : Path) : Bool :=
  decide (child.normal = parent.normal)
    || (relativeHead child.normal parent.normal).any fun first => decide (first ≠ dotdot)

theorem mismatch_append {α : Type} [DecidableEq α] (p a b : List α) : mismatch (p ++ a) (p ++ b) = mismatch a b := by
  induction p with
  | nil => rfl
  | cons x p ih =>
      show (if x = x then mismatch (p ++ a) (p ++ b) else _) = _
      rw [if_pos rfl, ih]

/-- Names under the root lead down. -/
theorem depth_pos {n : Name} {names : List Name} (h : ∀ m ∈ n :: names, m ≠ [] ∧ m ≠ dot ∧ m ≠ dotdot) (t : Bool) :
    0 < depth (n :: names ++ if t then [[]] else []) := by
  have hnonneg : ∀ {ns : List Name}, (∀ m ∈ ns, m ≠ dotdot) → 0 ≤ depth ns := by
    intro ns hns
    induction ns with
    | nil => exact Int.le_refl 0
    | cons m ns ih =>
        have hrest := ih fun x hx => hns x (List.mem_cons_of_mem _ hx)
        rw [depth, if_neg (hns m List.mem_cons_self)]
        split <;> omega
  obtain ⟨hnil, hdot, hup⟩ := h n List.mem_cons_self
  have hrest : 0 ≤ depth (names ++ if t then [[]] else []) := by
    refine hnonneg fun m hm => ?_
    obtain hm | hm := List.mem_append.mp hm
    · exact (h m (List.mem_cons_of_mem _ hm)).2.2
    · split at hm
      · rw [List.mem_singleton.mp hm]
        decide
      · cases hm
  show 0 < depth (n :: (names ++ _))
  rw [depth, if_neg hup, if_neg (not_or.mpr ⟨hnil, hdot⟩)]
  omega

/-- The element behind a trailing separator. -/
def Path.ending (p : Path) : List Name := if p.trailing then [[]] else []

theorem Path.ending_cases (p : Path) : p.ending = [] ∨ p.ending = [[]] := by
  unfold Path.ending
  split
  · exact .inr rfl
  · exact .inl rfl

theorem Path.mem_ending (p : Path) {n : Name} (h : n ∈ p.ending) : n = [] := by
  obtain hp | hp := p.ending_cases
  · rw [hp] at h
    cases h
  · rw [hp] at h
    exact List.mem_singleton.mp h

/-- If the names do not go on from those of the other path, a name of the other path
is left. -/
theorem mismatch_not_prefix {t u : List Name} {parent : List Name} :
    ∀ {child : List Name}, ¬ parent <+: child → (∀ n ∈ parent, n ≠ []) → (∀ n ∈ t, n = []) →
      ∃ a n ns, mismatch (child ++ t) (parent ++ u) = (a, n :: ns ++ u) ∧ n :: ns <:+ parent := by
  induction parent with
  | nil => exact fun h => absurd List.nil_prefix h
  | cons n parent ih =>
      intro child h hparent ht
      cases child with
      | nil =>
          cases t with
          | nil => exact ⟨[], n, parent, rfl, List.suffix_refl _⟩
          | cons m t =>
              have hne : ¬ m = n := by
                rw [ht m List.mem_cons_self]
                exact Ne.symm (hparent n List.mem_cons_self)
              exact ⟨m :: t, n, parent, if_neg hne, List.suffix_refl _⟩
      | cons m child =>
          by_cases heq : m = n
          · subst heq
            have hrest : ¬ parent <+: child := fun hp => h (List.cons_prefix_cons.mpr ⟨rfl, hp⟩)
            obtain ⟨a, x, xs, hmis, hsuf⟩ := ih hrest (fun x hx => hparent x (List.mem_cons_of_mem _ hx)) ht
            exact ⟨a, x, xs, (if_pos rfl).trans hmis, hsuf.trans (List.suffix_cons _ _)⟩
          · exact ⟨m :: (child ++ t), n, parent, if_neg heq, List.suffix_refl _⟩

/-- **Under the root** the relative path begins with no `..` exactly if the names go
on from those of the other path. -/
theorem relativeHead_rooted {child parent : Path} (hc : child.rooted = true) (hp : parent.rooted = true)
    (hchild : Clean true child.names) (hparent : Clean true parent.names) :
    ((relativeHead child parent).any fun first => decide (first ≠ dotdot)) = true
      ↔ parent.names <+: child.names := by
  have hsame : mismatch child.elements parent.elements
      = mismatch (child.names ++ child.ending) (parent.names ++ parent.ending) := by
    unfold Path.elements
    rw [hc, hp]
    exact mismatch_append [['/']] _ _
  unfold relativeHead
  rw [if_neg (by rw [hc, hp]; exact not_not.mpr rfl), hsame]
  constructor
  · intro h
    by_contra hnot
    -- a name of the other path is left, and the way leads up
    obtain ⟨a, n, ns, hmis, hsuf⟩ := mismatch_not_prefix (t := child.ending) (u := parent.ending) hnot
      (fun n hn => (hparent.proper n hn).1) fun n hn => child.mem_ending hn
    have hpos : 0 < depth (n :: ns ++ parent.ending) := by
      refine depth_pos (fun m hm => ?_) parent.trailing
      have hmem := hsuf.subset hm
      exact ⟨(hparent.proper m hmem).1, (hparent.proper m hmem).2,
        fun hup => hparent.not_dotdot (by rw [← hup]; exact hmem)⟩
    rw [hmis] at h
    dsimp only at h
    rw [if_neg (by simp), if_neg (by omega), if_neg (by omega), if_pos hpos] at h
    exact absurd h (by decide)
  · rintro ⟨rest, hrest⟩
    rw [← hrest, List.append_assoc, mismatch_append]
    cases rest with
    | nil =>
        show ((_ : Option Name).any _) = true
        obtain hc' | hc' := child.ending_cases <;> obtain hp' | hp' := parent.ending_cases <;> rw [hc', hp'] <;> decide
    | cons n rest =>
        -- the first name behind the other path is left, and nothing but a separator of the other one
        have hmem : n ∈ child.names := by
          rw [← hrest]
          exact List.mem_append_right _ List.mem_cons_self
        have hproper := hchild.proper n hmem
        have hup : n ≠ dotdot := fun heq => hchild.not_dotdot (by rw [← heq]; exact hmem)
        have hmis : mismatch (n :: rest ++ child.ending) parent.ending
            = (n :: rest ++ child.ending, parent.ending) := by
          obtain hp' | hp' := parent.ending_cases <;> rw [hp']
          · rfl
          · exact if_neg hproper.1
        have hzero : depth parent.ending = 0 := by
          obtain hp' | hp' := parent.ending_cases <;> rw [hp'] <;> decide
        rw [hmis]
        dsimp only
        rw [hzero, if_neg (by simp), if_neg (by simpa using hproper.1), if_neg (by decide), if_neg (by decide)]
        exact decide_eq_true hup

/-- **Inside, under the root**: the names of the normal form go on from those of the
other path's normal form. -/
theorem inside_iff {child parent : Path} (hchild : child.Proper) (hparent : parent.Proper)
    (hc : child.rooted = true) (hp : parent.rooted = true) :
    inside child parent = true ↔ normalNames true parent.names <+: normalNames true child.names := by
  have hnormal : ∀ {p : Path}, p.rooted = true →
      p.normal.rooted = true ∧ p.normal.names = normalNames true p.names := by
    intro p hroot
    by_cases hnil : normalNames p.rooted p.names = []
    · rw [normal_nil hnil, ← hroot, hnil, hroot]
      exact ⟨rfl, rfl⟩
    · rw [normal_names hnil]
      exact ⟨hroot, by rw [hroot]⟩
  obtain ⟨hc', hcnames⟩ := hnormal hc
  obtain ⟨hp', hpnames⟩ := hnormal hp
  have hcclean : Clean true child.normal.names := by
    rw [hcnames]
    exact normalNames_clean hchild.names
  have hpclean : Clean true parent.normal.names := by
    rw [hpnames]
    exact normalNames_clean hparent.names
  rw [inside, Bool.or_eq_true, relativeHead_rooted hc' hp' hcclean hpclean, decide_eq_true_iff, hcnames, hpnames]
  refine or_iff_right_of_imp fun heq => ?_
  have hsame : normalNames true parent.names = normalNames true child.names := by
    rw [← hcnames, ← hpnames, heq]
  exact hsame ▸ List.prefix_refl _

end ShaderClippy.LexicalPath
