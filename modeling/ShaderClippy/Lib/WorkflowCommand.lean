/-
  ShaderClippy.Lib.WorkflowCommand

  **WORKFLOW COMMANDS, READ BACK.**

  `::name key=value,key=value::data`, the line by which a program annotates
  a build log. `decode` reads it: the properties end at the first `::`, they
  are separated by commas, a name ends at the first `=`, values and data are
  percent-decoded.

  `escape` is the encoding for DATA: it takes care of `%` and of line breaks
  and of no separator. A reader sees the same separators before and after it
  (`splitColons_escape`, `splitOn_escape`), and it is undone exactly by either
  decoding (`unescape_escape`). So `decode_escaped_iff` says when properties
  that were encoded as if they were data come back: when no value holds a
  comma and no `::` comes too early.
-/
import Mathlib

namespace WorkflowCommand

/-! ## §1. The grammar. -/

/-- A command: its name, its properties in order, its data. -/
structure Command where
  name : List Char
  properties : List (List Char × List Char)
  data : List Char
  deriving Repr, DecidableEq

/-- Split at the first `::`. -/
def splitColons : List Char → Option (List Char × List Char)
  | [] => none
  | c :: cs =>
      if c = ':' ∧ cs.head? = some ':' then some ([], cs.tail)
      else (splitColons cs).map fun p => (c :: p.1, p.2)

/-- Split at the first `=`. -/
def splitEquals (s : List Char) : Option (List Char × List Char) :=
  if '=' ∈ s then some (s.takeWhile (· ≠ '='), (s.dropWhile (· ≠ '=')).tail) else none

/-- Replace every code: a `%` and two symbols that stand for a third. -/
def unescape (codes : Char → Char → Option Char) : List Char → List Char
  | c :: a :: b :: cs =>
      match if c = '%' then codes a b else none with
      | some d => d :: unescape codes cs
      | none => c :: unescape codes (a :: b :: cs)
  | [c, a] => [c, a]
  | [c] => [c]
  | [] => []

/-- The codes of data. -/
def dataCode (a b : Char) : Option Char :=
  if a = '2' ∧ b = '5' then some '%'
  else if a = '0' ∧ b = 'D' then some '\r'
  else if a = '0' ∧ b = 'A' then some '\n'
  else none

/-- The codes of property values: those of data, `:` and `,`. -/
def propertyCode (a b : Char) : Option Char :=
  if a = '3' ∧ b = 'A' then some ':'
  else if a = '2' ∧ b = 'C' then some ','
  else dataCode a b

/-- One property; what holds no `=` is none. -/
def property (s : List Char) : Option (List Char × List Char) :=
  (splitEquals s).map fun p => (p.1, unescape propertyCode p.2)

/-- The command of a line. -/
def decode : List Char → Option Command
  | ':' :: ':' :: rest =>
      (splitColons rest).map fun p =>
        ⟨p.1.takeWhile (· ≠ ' '),
          ((p.1.dropWhile (· ≠ ' ')).tail.splitOn ',').filterMap property,
          unescape dataCode p.2⟩
  | _ => none

/-! ## §2. The first `::`. -/

theorem splitColons_cons_ne {c : Char} (h : c ≠ ':') (s : List Char) :
    splitColons (c :: s) = (splitColons s).map fun p => (c :: p.1, p.2) := by
  rw [splitColons, if_neg fun hc => h hc.1]

theorem splitColons_skip {x : List Char} (hx : ':' ∉ x) (s : List Char) :
    splitColons (x ++ s) = (splitColons s).map fun p => (x ++ p.1, p.2) := by
  induction x with
  | nil => simp
  | cons c x ih =>
      rw [List.mem_cons, not_or] at hx
      rw [List.cons_append, splitColons_cons_ne (Ne.symm hx.1), ih hx.2, Option.map_map]
      rfl

/-- No `::` begins at `c` when `c` is no colon. -/
theorem colons_infix_cons {c : Char} {s : List Char} :
    [':', ':'] <:+: c :: s ↔ (c = ':' ∧ s.head? = some ':') ∨ [':', ':'] <:+: s := by
  rw [List.infix_cons_iff]
  have hhead : [':', ':'] <+: c :: s ↔ c = ':' ∧ s.head? = some ':' := by
    cases s with
    | nil => simp
    | cons d s => simp [eq_comm]
  rw [hhead]

theorem not_infix_colons {s : List Char} (h : ':' ∉ s) : ¬ [':', ':'] <:+: s :=
  fun hi => h (hi.subset (List.mem_cons_self ..))

/-- Any other symbol keeps the colons on its two sides apart. -/
theorem colons_infix_append {c : Char} (hc : c ≠ ':') (x y : List Char) :
    [':', ':'] <:+: x ++ c :: y ↔ [':', ':'] <:+: x ∨ [':', ':'] <:+: y := by
  induction x with
  | nil =>
      rw [List.nil_append, colons_infix_cons]
      constructor
      · intro h
        exact .inr (h.resolve_left fun hcs => hc hcs.1)
      · intro h
        exact .inr (h.resolve_left (by decide))
  | cons d x ih =>
      have hhead : (x ++ c :: y).head? = some ':' ↔ x.head? = some ':' := by
        cases x with
        | nil => simp [hc]
        | cons e x => exact Iff.rfl
      rw [List.cons_append, colons_infix_cons, colons_infix_cons, ih, hhead, or_assoc]

/-- **Splitting at the first `::`.** -/
theorem splitColons_eq_some_iff {a b : List Char} : ∀ {s : List Char},
    splitColons s = some (a, b) ↔ s = a ++ ':' :: ':' :: b ∧ ¬ [':', ':'] <:+: a ++ [':'] := by
  induction a with
  | nil =>
      intro s
      have hnone : ¬ [':', ':'] <:+: [] ++ [':'] := by decide
      cases s with
      | nil => simp [splitColons]
      | cons c s =>
          rw [splitColons]
          by_cases hc : c = ':' ∧ s.head? = some ':'
          · rw [if_pos hc]
            obtain ⟨rfl, hs⟩ := hc
            cases s with
            | nil => simp at hs
            | cons d s =>
                cases hs
                constructor
                · intro h
                  cases h
                  exact ⟨rfl, hnone⟩
                · intro ⟨h, _⟩
                  cases h
                  rfl
          · rw [if_neg hc]
            constructor
            · intro h
              obtain ⟨p, -, hp⟩ := Option.map_eq_some_iff.mp h
              exact absurd (congrArg Prod.fst hp) (by simp)
            · intro ⟨h, _⟩
              cases h
              exact absurd ⟨rfl, rfl⟩ hc
  | cons x a ih =>
      intro s
      cases s with
      | nil => simp [splitColons]
      | cons c s =>
          rw [splitColons, List.cons_append, List.cons_append, colons_infix_cons]
          by_cases hc : c = ':' ∧ s.head? = some ':'
          · rw [if_pos hc]
            constructor
            · intro h
              exact absurd (congrArg (fun p => p.map Prod.fst) h) (by simp)
            · -- the `::` would be found earlier
              intro ⟨h, hno⟩
              obtain ⟨rfl, hs⟩ := hc
              cases h
              refine absurd (Or.inl ⟨rfl, ?_⟩) hno
              cases a with
              | nil => rfl
              | cons y a => exact hs
          · rw [if_neg hc]
            constructor
            · intro h
              obtain ⟨⟨a', b'⟩, hsplit, hp⟩ := Option.map_eq_some_iff.mp h
              cases hp
              obtain ⟨hs, hno⟩ := ih.mp hsplit
              refine ⟨by rw [hs], not_or.mpr ⟨fun hx => hc ⟨hx.1, ?_⟩, hno⟩⟩
              rw [hs]
              cases a' with
              | nil => rfl
              | cons y a => exact hx.2
            · intro ⟨h, hno⟩
              cases h
              rw [ih.mpr ⟨rfl, fun hin => hno (Or.inr hin)⟩]
              rfl

/-- The first `::` is found, at the latest where one is known to be. -/
theorem exists_splitColons (x y : List Char) :
    ∃ a b, splitColons (x ++ ':' :: ':' :: y) = some (a, b) ∧ a <+: x := by
  induction x with
  | nil => exact ⟨[], y, rfl, List.prefix_refl _⟩
  | cons c x ih =>
      obtain ⟨a, b, hsplit, hprefix⟩ := ih
      rw [List.cons_append, splitColons, hsplit]
      by_cases hc : c = ':' ∧ (x ++ ':' :: ':' :: y).head? = some ':'
      · exact ⟨[], _, by rw [if_pos hc], List.nil_prefix⟩
      · exact ⟨c :: a, b, by rw [if_neg hc]; rfl, List.cons_prefix_cons.mpr ⟨rfl, hprefix⟩⟩

/-! ## §3. Decoding. -/

theorem unescape_cons_ne {codes : Char → Char → Option Char} {c : Char} (h : c ≠ '%')
    (s : List Char) : unescape codes (c :: s) = c :: unescape codes s := by
  match s with
  | [] => rfl
  | [_] => rfl
  | a :: b :: cs => rw [unescape, if_neg h]

theorem unescape_code {codes : Char → Char → Option Char} {a b d : Char} (h : codes a b = some d)
    (s : List Char) : unescape codes ('%' :: a :: b :: s) = d :: unescape codes s := by
  rw [unescape, if_pos rfl, h]

/-- No code occurs in `s`. -/
def NoCode (codes : Char → Char → Option Char) (s : List Char) : Prop :=
  ∀ a b, (codes a b).isSome → ¬ ['%', a, b] <:+: s

theorem noCode_cons {codes : Char → Char → Option Char} {c : Char} {s : List Char} :
    NoCode codes (c :: s) ↔
      (∀ a b, (codes a b).isSome → ¬ ['%', a, b] <+: c :: s) ∧ NoCode codes s := by
  unfold NoCode
  constructor
  · intro h
    exact ⟨fun a b hab hp => h a b hab hp.isInfix,
      fun a b hab hi => h a b hab (List.infix_cons_iff.mpr (.inr hi))⟩
  · intro ⟨hhead, htail⟩ a b hab hi
    rcases List.infix_cons_iff.mp hi with hp | hi
    · exact hhead a b hab hp
    · exact htail a b hab hi

/-- **Decoding leaves a text alone, or makes it shorter when a code occurs.** -/
theorem unescape_spec (codes : Char → Char → Option Char) (s : List Char) :
    (NoCode codes s ∧ unescape codes s = s)
      ∨ (¬ NoCode codes s ∧ (unescape codes s).length < s.length) := by
  have hshort : ∀ {s : List Char}, s.length < 3 → NoCode codes s := by
    intro s hs a b _ hi
    have := hi.length_le
    simp only [List.length_cons, List.length_nil] at this
    omega
  fun_induction unescape codes s with
  | case1 c a b cs d hcode ih =>
      -- a code stands here
      refine .inr ⟨fun hno => ?_, ?_⟩
      · by_cases hc : c = '%'
        · rw [if_pos hc] at hcode
          exact hno a b (by rw [hcode]; rfl) ⟨[], cs, by rw [hc]; rfl⟩
        · rw [if_neg hc] at hcode
          cases hcode
      · have hle : (unescape codes cs).length ≤ cs.length := by
          rcases ih with ⟨-, h⟩ | ⟨-, h⟩
          · rw [h]
          · omega
        simp only [List.length_cons]
        omega
  | case2 c a b cs hcode ih =>
      have hhead : ∀ a' b', (codes a' b').isSome → ¬ ['%', a', b'] <+: c :: a :: b :: cs := by
        intro a' b' hab hp
        simp only [List.cons_prefix_cons] at hp
        obtain ⟨rfl, rfl, rfl, -⟩ := hp
        rw [if_pos rfl] at hcode
        rw [hcode] at hab
        cases hab
      rw [noCode_cons]
      rcases ih with ⟨hno, heq⟩ | ⟨hno, hlt⟩
      · exact .inl ⟨⟨hhead, hno⟩, by rw [heq]⟩
      · refine .inr ⟨fun h => hno h.2, ?_⟩
        simp only [List.length_cons] at hlt ⊢
        omega
  | case3 c a => exact .inl ⟨hshort (by simp), rfl⟩
  | case4 c => exact .inl ⟨hshort (by simp), rfl⟩
  | case5 => exact .inl ⟨hshort (by simp), rfl⟩

theorem unescape_eq_self_iff {codes : Char → Char → Option Char} {s : List Char} :
    unescape codes s = s ↔ NoCode codes s := by
  rcases unescape_spec codes s with ⟨hno, heq⟩ | ⟨hno, hlt⟩
  · exact ⟨fun _ => hno, fun _ => heq⟩
  · refine ⟨fun h => ?_, fun h => absurd h hno⟩
    rw [h] at hlt
    exact absurd hlt (Nat.lt_irrefl _)

theorem length_unescape_le (codes : Char → Char → Option Char) (s : List Char) :
    (unescape codes s).length ≤ s.length := by
  rcases unescape_spec codes s with ⟨-, heq⟩ | ⟨-, hlt⟩
  · rw [heq]
  · exact Nat.le_of_lt hlt

/-- A symbol that ends no code may follow. -/
theorem noCode_concat {codes : Char → Char → Option Char} {c : Char}
    (hc : ∀ a, codes a c = none) (s : List Char) :
    NoCode codes (s ++ [c]) ↔ NoCode codes s := by
  constructor
  · intro h a b hab hi
    exact h a b hab (hi.trans (List.prefix_append s [c]).isInfix)
  · intro h a b hab hi
    rcases List.infix_concat_iff.mp hi with ⟨t, ht⟩ | hi
    · -- the code would end in `c`
      have hlast := congrArg List.getLast? ht
      rw [List.getLast?_append, List.getLast?_append] at hlast
      cases hlast
      rw [hc a] at hab
      cases hab
    · exact h a b hab hi

/-! ## §4. The encoding of data. -/

/-- The code of a symbol that data may not hold. -/
def escapeChar (c : Char) : List Char :=
  if c = '%' then ['%', '2', '5']
  else if c = '\r' then ['%', '0', 'D']
  else if c = '\n' then ['%', '0', 'A']
  else [c]

/-- The encoding of data. -/
def escape (s : List Char) : List Char := s.flatMap escapeChar

/-- The encoding leaves the symbol alone. -/
def Plain (c : Char) : Prop := c ≠ '%' ∧ c ≠ '\r' ∧ c ≠ '\n'

instance : DecidablePred Plain := fun _ => inferInstanceAs (Decidable (_ ∧ _))

/-- The symbol does not occur in a code. -/
def Separator (c : Char) : Prop := c ∉ ['%', '\r', '\n', '2', '5', '0', 'D', 'A']

instance : DecidablePred Separator := fun _ => inferInstanceAs (Decidable (¬ _))

theorem Separator.plain {c : Char} (h : Separator c) : Plain c := by
  unfold Separator at h
  simp only [List.mem_cons, not_or] at h
  exact ⟨h.1, h.2.1, h.2.2.1⟩

theorem escapeChar_plain {c : Char} (h : Plain c) : escapeChar c = [c] := by
  rw [escapeChar, if_neg h.1, if_neg h.2.1, if_neg h.2.2]

@[simp] theorem escape_nil : escape [] = [] := rfl

theorem escape_cons (c : Char) (s : List Char) : escape (c :: s) = escapeChar c ++ escape s := rfl

theorem escape_append (s t : List Char) : escape (s ++ t) = escape s ++ escape t :=
  List.flatMap_append

theorem escape_cons_plain {c : Char} (h : Plain c) (s : List Char) :
    escape (c :: s) = c :: escape s := by
  rw [escape_cons, escapeChar_plain h]
  rfl

theorem escape_plain {s : List Char} (h : ∀ c ∈ s, Plain c) : escape s = s := by
  induction s with
  | nil => rfl
  | cons c s ih =>
      rw [escape_cons_plain (h c (List.mem_cons_self ..)),
        ih fun d hd => h d (List.mem_cons_of_mem _ hd)]

/-- A separator occurs in a code of the encoding only as itself. -/
theorem mem_escapeChar {c d : Char} (hc : Separator c) : c ∈ escapeChar d ↔ c = d := by
  unfold Separator at hc
  simp only [List.mem_cons, not_or] at hc
  obtain ⟨h1, h2, h3, h4, h5, h6, h7, h8, -⟩ := hc
  unfold escapeChar
  split_ifs with hd1 hd2 hd3
  · simp [hd1, h1, h4, h5]
  · simp [hd2, h1, h2, h6, h7]
  · simp [hd3, h1, h3, h6, h8]
  · simp

theorem mem_escape {c : Char} (hc : Separator c) {s : List Char} : c ∈ escape s ↔ c ∈ s := by
  unfold escape
  simp only [List.mem_flatMap, mem_escapeChar hc]
  simp

/-- A line break is gone. -/
theorem newline_not_mem_escape (s : List Char) : '\n' ∉ escape s := by
  intro h
  obtain ⟨d, -, hd⟩ := List.mem_flatMap.mp h
  unfold escapeChar at hd
  split_ifs at hd with h1 h2 h3
  · simp at hd
  · simp at hd
  · simp at hd
  · exact h3 (List.mem_singleton.mp hd).symm

/-- **Either decoding undoes the encoding**, whatever follows. -/
theorem unescape_escape {codes : Char → Char → Option Char}
    (hcodes : ∀ a b d, dataCode a b = some d → codes a b = some d) (s t : List Char) :
    unescape codes (escape s ++ t) = s ++ unescape codes t := by
  induction s with
  | nil => rfl
  | cons c s ih =>
      rw [escape_cons, escapeChar]
      split_ifs with h1 h2 h3
      · rw [h1]
        show unescape codes ('%' :: '2' :: '5' :: (escape s ++ t)) = _
        rw [unescape_code (hcodes '2' '5' '%' (by decide)), ih]
        rfl
      · rw [h2]
        show unescape codes ('%' :: '0' :: 'D' :: (escape s ++ t)) = _
        rw [unescape_code (hcodes '0' 'D' '\r' (by decide)), ih]
        rfl
      · rw [h3]
        show unescape codes ('%' :: '0' :: 'A' :: (escape s ++ t)) = _
        rw [unescape_code (hcodes '0' 'A' '\n' (by decide)), ih]
        rfl
      · show unescape codes (c :: (escape s ++ t)) = _
        rw [unescape_cons_ne h1, ih]
        rfl

theorem unescape_dataCode_escape (s t : List Char) :
    unescape dataCode (escape s ++ t) = s ++ unescape dataCode t :=
  unescape_escape (fun _ _ _ h => h) s t

theorem unescape_propertyCode_escape (s : List Char) :
    unescape propertyCode (escape s) = s := by
  have hcodes : ∀ a b d, dataCode a b = some d → propertyCode a b = some d := by
    intro a b d h
    -- no code of data is one of the two that properties add
    have h1 : ¬ (a = '3' ∧ b = 'A') := by
      rintro ⟨rfl, rfl⟩
      simp [dataCode] at h
    have h2 : ¬ (a = '2' ∧ b = 'C') := by
      rintro ⟨rfl, rfl⟩
      simp [dataCode] at h
    rw [propertyCode, if_neg h1, if_neg h2, h]
  have h := unescape_escape hcodes s []
  rw [List.append_nil] at h
  rw [h]
  exact List.append_nil s

/-! ## §5. The encoding hides no separator. -/

theorem takeWhile_escape {c : Char} (hc : Separator c) (s : List Char) :
    (escape s).takeWhile (· ≠ c) = escape (s.takeWhile (· ≠ c))
      ∧ (escape s).dropWhile (· ≠ c) = escape (s.dropWhile (· ≠ c)) := by
  induction s with
  | nil => exact ⟨rfl, rfl⟩
  | cons d s ih =>
      by_cases hd : d = c
      · rw [hd, escape_cons_plain hc.plain]
        simp [escape_cons_plain hc.plain]
      · have hall : ∀ x ∈ escapeChar d, decide (x ≠ c) = true := by
          intro x hx
          refine decide_eq_true fun hxc => hd ?_
          rw [hxc] at hx
          exact ((mem_escapeChar hc).mp hx).symm
        rw [escape_cons, List.takeWhile_append_of_pos hall, List.dropWhile_append_of_pos hall, ih.1,
          ih.2, List.takeWhile_cons, List.dropWhile_cons]
        simp only [hd, ne_eq, not_false_eq_true, decide_true, if_true, and_true]
        rfl

theorem splitEquals_escape (s : List Char) :
    splitEquals (escape s) = (splitEquals s).map fun p => (escape p.1, escape p.2) := by
  have hsep : Separator '=' := by decide
  unfold splitEquals
  rw [(takeWhile_escape hsep s).1, (takeWhile_escape hsep s).2]
  by_cases h : '=' ∈ s
  · rw [if_pos ((mem_escape hsep).mpr h), if_pos h]
    -- the rest begins with the `=`, which the encoding leaves alone
    have hrest : ∃ rest, s.dropWhile (· ≠ '=') = '=' :: rest := by
      induction s with
      | nil => exact absurd h List.not_mem_nil
      | cons d s ih =>
          by_cases hd : d = '='
          · exact ⟨s, by rw [hd]; rfl⟩
          · rw [List.dropWhile_cons]
            simp only [hd, ne_eq, not_false_eq_true, decide_true, if_true]
            exact ih ((List.mem_cons.mp h).resolve_left (Ne.symm hd))
    obtain ⟨rest, hrest⟩ := hrest
    rw [hrest, escape_cons_plain hsep.plain]
    rfl
  · rw [if_neg fun hs => h ((mem_escape hsep).mp hs), if_neg h]
    rfl

theorem escape_intercalate {c : Char} (hc : Separator c) (l : List (List Char)) :
    escape ([c].intercalate l) = [c].intercalate (l.map escape) := by
  induction l with
  | nil => rfl
  | cons x l ih =>
      cases l with
      | nil => simp [List.intercalate_singleton]
      | cons y l =>
          rw [List.map_cons, List.map_cons, List.intercalate_cons_cons, List.intercalate_cons_cons,
            escape_append, escape_append, ih, List.map_cons]
          rw [show escape [c] = [c] from escape_cons_plain hc.plain []]

/-- A part between separators holds none. -/
theorem not_mem_of_mem_splitOn {c : Char} {s : List Char} :
    ∀ x ∈ s.splitOn c, c ∉ x := by
  induction s with
  | nil => simp
  | cons d s ih =>
      intro x hx
      rw [List.splitOn_cons_eq_if_modifyHead] at hx
      by_cases hd : d = c
      · rw [if_pos (by simpa using hd)] at hx
        rcases List.mem_cons.mp hx with rfl | hx
        · exact List.not_mem_nil
        · exact ih x hx
      · rw [if_neg (by simpa using hd)] at hx
        cases hparts : s.splitOn c with
        | nil => exact absurd hparts (List.splitOn_ne_nil c s)
        | cons y parts =>
            rw [hparts] at hx ih
            rcases List.mem_cons.mp hx with rfl | hx
            · rw [List.mem_cons, not_or]
              exact ⟨Ne.symm hd, ih y (List.mem_cons_self ..)⟩
            · exact ih x (List.mem_cons_of_mem _ hx)

theorem splitOn_escape {c : Char} (hc : Separator c) (s : List Char) :
    (escape s).splitOn c = (s.splitOn c).map escape := by
  have hfree : ∀ x ∈ (s.splitOn c).map escape, c ∉ x := by
    intro x hx hcx
    obtain ⟨y, hy, rfl⟩ := List.mem_map.mp hx
    exact not_mem_of_mem_splitOn y hy ((mem_escape hc).mp hcx)
  have hne : (s.splitOn c).map escape ≠ [] := by simp
  have hjoined : [c].intercalate (s.splitOn c) = s := List.intercalate_splitOn c
  have hescaped : escape s = [c].intercalate ((s.splitOn c).map escape) := by
    rw [← escape_intercalate hc, hjoined]
  rw [hescaped]
  exact List.splitOn_intercalate c hfree hne

theorem splitColons_escape {s a b : List Char} (t : List Char)
    (h : splitColons s = some (a, b)) :
    splitColons (escape s ++ t) = some (escape a, escape b ++ t) := by
  have hplain : Plain ':' := by decide
  have hsep : Separator ':' := by decide
  obtain ⟨rfl, hno⟩ := splitColons_eq_some_iff.mp h
  refine splitColons_eq_some_iff.mpr ⟨?_, ?_⟩
  · rw [escape_append, escape_cons_plain hplain, escape_cons_plain hplain, List.append_assoc]
    rfl
  · -- the encoding makes no colons meet
    clear h
    induction a with
    | nil => exact hno
    | cons x a ih =>
        rw [List.cons_append, colons_infix_cons, not_or] at hno
        obtain ⟨hhead, hno⟩ := hno
        have htail := ih hno
        by_cases hx : x = ':'
        · rw [hx, escape_cons_plain hplain, List.cons_append, colons_infix_cons]
          refine not_or.mpr ⟨fun hmeet => hhead ⟨hx, ?_⟩, htail⟩
          cases a with
          | nil => rfl
          | cons y a =>
              have hy : ':' ∈ escapeChar y := by
                have hfirst : (escapeChar y).head? = some ':' := by
                  have := hmeet.2
                  rw [escape_cons, List.append_assoc] at this
                  unfold escapeChar at this ⊢
                  split_ifs at this ⊢ <;> simp_all
                exact List.mem_of_head? hfirst
              rw [← (mem_escapeChar hsep).mp hy]
              rfl
        · have hskip : ∀ (y : List Char), ':' ∉ y → ¬ [':', ':'] <:+: y ++ (escape a ++ [':']) := by
            intro y
            induction y with
            | nil => intro _; exact htail
            | cons c y ihy =>
                intro hy
                rw [List.mem_cons, not_or] at hy
                rw [List.cons_append, colons_infix_cons]
                exact not_or.mpr ⟨fun hc => hy.1 hc.1.symm, ihy hy.2⟩
          rw [escape_cons, List.append_assoc]
          exact hskip _ fun hmem => hx ((mem_escapeChar hsep).mp hmem).symm

/-! ## §6. Properties encoded as data. -/

/-- One property, written. -/
def written (p : List Char × List Char) : List Char := p.1 ++ '=' :: p.2

/-- The properties, written with commas between them. -/
def body (props : List (List Char × List Char)) : List Char :=
  [','].intercalate (props.map written)

theorem splitEquals_written {k v : List Char} (hk : '=' ∉ k) :
    splitEquals (written (k, v)) = some (k, v) := by
  have hall : ∀ c ∈ k, decide (c ≠ '=') = true :=
    fun c hc => decide_eq_true fun heq => hk (heq ▸ hc)
  have hmem : '=' ∈ written (k, v) := List.mem_append_right _ (List.mem_cons_self ..)
  rw [splitEquals, if_pos hmem, written, List.takeWhile_append_of_pos hall,
    List.dropWhile_append_of_pos hall]
  simp

theorem written_splitEquals {s : List Char} {p : List Char × List Char}
    (h : splitEquals s = some p) : s = written p := by
  unfold splitEquals at h
  split at h
  next hmem =>
    cases h
    rw [written]
    induction s with
    | nil => exact absurd hmem List.not_mem_nil
    | cons d s ih =>
        by_cases hd : d = '='
        · rw [hd]
          rfl
        · have hs := ih ((List.mem_cons.mp hmem).resolve_left (Ne.symm hd))
          rw [List.takeWhile_cons, List.dropWhile_cons]
          simp only [hd, ne_eq, not_false_eq_true, decide_true, if_true]
          exact congrArg (d :: ·) hs
  · cases h

/-- What is read when a part is written encoded. -/
def readBack (s : List Char) : Option (List Char × List Char) := property (escape s)

theorem readBack_eq (s : List Char) :
    readBack s = (splitEquals s).map fun p => (escape p.1, p.2) := by
  rw [readBack, property, splitEquals_escape, Option.map_map]
  simp only [Function.comp_def, unescape_propertyCode_escape]

theorem length_intercalate (c : Char) (l : List (List Char)) :
    ([c].intercalate l).length = (l.map (·.length + 1)).sum - 1 := by
  induction l with
  | nil => rfl
  | cons x l ih =>
      cases l with
      | nil => simp [List.intercalate_singleton]
      | cons y l =>
          rw [List.intercalate_cons_cons, List.length_append, List.length_append, ih]
          simp only [List.map_cons, List.sum_cons, List.length_cons, List.length_nil]
          omega

/-- Properties read from a text are no longer than the text. -/
theorem length_body_le {s : List Char} {props : List (List Char × List Char)}
    (h : (s.splitOn ',').filterMap splitEquals = props) : (body props).length ≤ s.length := by
  have hsum : ∀ l : List (List Char),
      (((l.filterMap splitEquals).map written).map (·.length + 1)).sum
        ≤ (l.map (·.length + 1)).sum := by
    intro l
    induction l with
    | nil => exact Nat.le_refl 0
    | cons x l ih =>
        cases hx : splitEquals x with
        | none =>
            rw [List.filterMap_cons_none hx, List.map_cons, List.sum_cons]
            exact Nat.le_add_left_of_le ih
        | some p =>
            rw [List.filterMap_cons_some hx, List.map_cons, List.map_cons, List.map_cons,
              List.sum_cons, List.sum_cons, ← written_splitEquals hx]
            exact Nat.add_le_add_left ih _
  have hlen : (body props).length ≤ ([','].intercalate (s.splitOn ',')).length := by
    rw [body, length_intercalate, length_intercalate, ← h]
    exact Nat.sub_le_sub_right (hsum _) 1
  rwa [List.intercalate_splitOn] at hlen

/-- Names that neither hold a separator nor need an encoding. -/
def NamesClean (name : List Char) (props : List (List Char × List Char)) : Prop :=
  (∀ c ∈ name, Plain c ∧ c ≠ ' ' ∧ c ≠ ':') ∧ ∀ p ∈ props, ∀ c ∈ p.1, Plain c ∧ c ≠ '=' ∧ c ≠ ','

/-- Written properties, split and read. -/
theorem splitOn_body {props : List (List Char × List Char)}
    (hkeys : ∀ p ∈ props, ∀ c ∈ p.1, Plain c ∧ c ≠ '=' ∧ c ≠ ',')
    (hvalues : ∀ p ∈ props, ',' ∉ p.2) :
    ((body props).splitOn ',').filterMap readBack = props := by
  have hread : ∀ l : List (List Char × List Char), (∀ p ∈ l, ∀ c ∈ p.1, Plain c ∧ c ≠ '=' ∧ c ≠ ',') →
      (l.map written).filterMap readBack = l := by
    intro l
    induction l with
    | nil => intro _; rfl
    | cons p l ih =>
        intro hl
        have hp := hl p (List.mem_cons_self ..)
        have hone : readBack (written p) = some p := by
          rw [readBack_eq, splitEquals_written fun h => (hp '=' h).2.1 rfl, Option.map_some,
            escape_plain fun c hc => (hp c hc).1]
        rw [List.map_cons, List.filterMap_cons_some hone, ih fun q hq => hl q (List.mem_cons_of_mem _ hq)]
  cases props with
  | nil => decide
  | cons p props =>
      have hfree : ∀ x ∈ (p :: props).map written, ',' ∉ x := by
        intro x hx hcomma
        obtain ⟨q, hq, rfl⟩ := List.mem_map.mp hx
        rcases List.mem_append.mp hcomma with h | h
        · exact (hkeys q hq ',' h).2.2 rfl
        · rcases List.mem_cons.mp h with h | h
          · cases h
          · exact hvalues q hq h
      rw [body, List.splitOn_intercalate ',' hfree (by simp)]
      exact hread _ hkeys

/-- Only these texts read as these properties: the names need no encoding, so
they are what they were. -/
theorem splitEquals_of_property {s : List Char} {props : List (List Char × List Char)}
    (hkeys : ∀ p ∈ props, ∀ c ∈ p.1, Plain c ∧ c ≠ '=' ∧ c ≠ ',')
    (h : (s.splitOn ',').filterMap readBack = props) :
    (s.splitOn ',').filterMap splitEquals = props := by
  have hread : ∀ (l : List (List Char)) (props : List (List Char × List Char)),
      (∀ p ∈ props, ∀ c ∈ p.1, Plain c ∧ c ≠ '=' ∧ c ≠ ',') →
        l.filterMap readBack = props → l.filterMap splitEquals = props := by
    intro l
    induction l with
    | nil => intro props _ h; exact h
    | cons x l ih =>
        intro props hkeys h
        cases hx : splitEquals x with
        | none =>
            rw [List.filterMap_cons_none (by rw [readBack_eq, hx]; rfl)] at h
            rw [List.filterMap_cons_none hx]
            exact ih props hkeys h
        | some p =>
            have hp : readBack x = some (escape p.1, p.2) := by
              rw [readBack_eq, hx]
              rfl
            rw [List.filterMap_cons_some hp] at h
            subst h
            rw [List.filterMap_cons_some hx, ih _
              (fun q hq => hkeys q (List.mem_cons_of_mem _ hq)) rfl]
            -- an encoded name without a `%` was not changed by the encoding
            have hname : escape p.1 = p.1 := by
              have hclean := hkeys _ (List.mem_cons_self ..)
              have hback := unescape_propertyCode_escape p.1
              have hno : NoCode propertyCode (escape p.1) := by
                intro a b _ hi
                exact (hclean '%' (hi.subset (List.mem_cons_self ..))).1.1 rfl
              rw [unescape_eq_self_iff.mpr hno] at hback
              exact hback
            rw [hname]
  exact hread _ props hkeys h

/-- **Properties encoded as data come back IF AND ONLY IF no value holds a
comma and the first `::` is the one that ends them**; the data comes back as
far as what follows its encoding allows. -/
theorem decode_escaped_iff {name msg tail data : List Char}
    {props : List (List Char × List Char)} (hclean : NamesClean name props) :
    decode (':' :: ':' :: (escape (name ++ ' ' :: (body props ++ ':' :: ':' :: msg)) ++ tail))
        = some ⟨name, props, data⟩ ↔
      (∀ p ∈ props, ',' ∉ p.2) ∧ ¬ [':', ':'] <:+: body props ++ [':']
        ∧ msg ++ unescape dataCode tail = data := by
  obtain ⟨hname, hkeys⟩ := hclean
  obtain ⟨a, b, hsplit, hprefix⟩ := exists_splitColons (body props) msg
  have hcolon : ':' ∉ name ++ [' '] := by
    intro h
    rcases List.mem_append.mp h with h | h
    · exact (hname ':' h).2.2 rfl
    · exact absurd h (by decide)
  -- the reader sees the name and then the text up to the first `::`
  have hread : decode (':' :: ':' ::
      (escape (name ++ ' ' :: (body props ++ ':' :: ':' :: msg)) ++ tail))
        = some ⟨name, (a.splitOn ',').filterMap readBack,
            b ++ unescape dataCode tail⟩ := by
    have hwhole : splitColons (name ++ ' ' :: (body props ++ ':' :: ':' :: msg))
        = some (name ++ ' ' :: a, b) := by
      have h := splitColons_skip hcolon (body props ++ ':' :: ':' :: msg)
      rw [hsplit] at h
      simpa using h
    have hspace : Separator ' ' := by decide
    have hfirst : ∀ c ∈ name, decide (c ≠ ' ') = true :=
      fun c hc => decide_eq_true (hname c hc).2.1
    have htake : (name ++ ' ' :: a).takeWhile (· ≠ ' ') = name := by
      rw [List.takeWhile_append_of_pos hfirst]
      simp
    have hdrop : (name ++ ' ' :: a).dropWhile (· ≠ ' ') = ' ' :: a := by
      rw [List.dropWhile_append_of_pos hfirst]
      simp
    rw [decode, splitColons_escape tail hwhole, Option.map_some, (takeWhile_escape hspace _).1,
      (takeWhile_escape hspace _).2, htake, hdrop, escape_cons_plain hspace.plain, List.tail_cons,
      splitOn_escape (by decide), List.filterMap_map, escape_plain fun c hc => (hname c hc).1,
      unescape_dataCode_escape]
    rfl
  rw [hread]
  obtain ⟨hwhole, hno⟩ := splitColons_eq_some_iff.mp hsplit
  constructor
  · intro h
    simp only [Option.some.injEq, Command.mk.injEq, true_and] at h
    obtain ⟨hprops, hdata⟩ := h
    have hequals := splitEquals_of_property hkeys hprops
    -- the text read is as long as the properties written
    have ha : a = body props :=
      hprefix.eq_of_length_le (length_body_le hequals)
    rw [ha] at hno hwhole hequals
    have hb : b = msg := by
      have h := List.append_cancel_left hwhole
      cases h
      rfl
    refine ⟨?_, hno, by rw [← hb]; exact hdata⟩
    intro p hp hcomma
    rw [← hequals] at hp
    obtain ⟨x, hx, hxp⟩ := List.mem_filterMap.mp hp
    refine not_mem_of_mem_splitOn x hx ?_
    rw [written_splitEquals hxp]
    exact List.mem_append_right _ (List.mem_cons_of_mem _ hcomma)
  · intro ⟨hvalues, hnone, hdata⟩
    have hexact : splitColons (body props ++ ':' :: ':' :: msg) = some (body props, msg) :=
      splitColons_eq_some_iff.mpr ⟨rfl, hnone⟩
    rw [hsplit] at hexact
    cases hexact
    rw [splitOn_body hkeys hvalues, hdata]

end WorkflowCommand
