/-
  ShaderClippy.Suppress.Marker

  **WHAT `parse_marker` ACCEPTS.**

  The parser reads on past the end of its comment, but never uses what it finds
  there (`parseMarker_append`). On the comment alone it accepts exactly the
  markers of the grammar (`parseMarker_iff`): blanks, `shader-clippy:`, blanks,
  `allow`, blanks, a list of names in parentheses, and then anything.
-/
import ShaderClippy.Suppress.Scan

namespace ShaderClippy.Suppress

/-! ## §1. The grammar. -/

def Blanks (s : Text) : Prop := ∀ c ∈ s, isSpaceOrTab c = true

def Name (s : Text) : Prop := s ≠ [] ∧ ∀ c ∈ s, isIdentChar c = true

/-- Names with commas between them, a comma after the last one allowed. -/
inductive NameList : Text → List Text → Prop
  | blank {a : Text} : Blanks a → NameList a []
  | last {a n b : Text} : Blanks a → Name n → Blanks b → NameList (a ++ (n ++ b)) [n]
  | more {a n b rest : Text} {ns : List Text} : Blanks a → Name n → Blanks b → NameList rest ns →
      NameList (a ++ (n ++ (b ++ ',' :: rest))) (n :: ns)

/-- A comment with this body is a marker for these names, followed by `tail`. -/
def MarkerText (body : Text) (names : List Text) (tail : Text) : Prop :=
  names ≠ [] ∧ ∃ a b c list, Blanks a ∧ Blanks b ∧ Blanks c ∧ NameList list names
    ∧ body = a ++ (kMarker ++ (b ++ (kAllow ++ (c ++ '(' :: (list ++ ')' :: tail)))))

/-- The comment begins with the trigger. -/
def Triggered (body : Text) : Prop := ∃ a rest, Blanks a ∧ body = a ++ (kMarker ++ rest)

/-! ## §2. Runs of characters. -/

/-- The end of a line, or of the source. -/
def EndsLine (rest : Text) : Prop := rest = [] ∨ ∃ t, rest = '\n' :: t

theorem EndsLine.dropWhile {rest : Text} (h : EndsLine rest) {p : Char → Bool} (hp : p '\n' = false)
    (s : Text) : (s ++ rest).dropWhile p = s.dropWhile p ++ rest := by
  induction s with
  | nil =>
      rcases h with rfl | ⟨t, rfl⟩
      · rfl
      · simp [hp]
  | cons c cs ih =>
      rw [List.cons_append, List.dropWhile_cons, List.dropWhile_cons, ih]
      split <;> rfl

theorem EndsLine.takeWhile {rest : Text} (h : EndsLine rest) {p : Char → Bool} (hp : p '\n' = false)
    (s : Text) : (s ++ rest).takeWhile p = s.takeWhile p := by
  induction s with
  | nil =>
      rcases h with rfl | ⟨t, rfl⟩
      · rfl
      · simp [hp]
  | cons c cs ih =>
      rw [List.cons_append, List.takeWhile_cons, List.takeWhile_cons, ih]

/-! ## §3. The parser stays within its comment. -/

/-- A round that is done ends the list. -/
theorem parseRules_done {stop : Nat} {rules : List Text} {s : Text} {m : ParsedMarker}
    (h : parseRound stop rules s = .done m) : parseRules stop rules s = m := by
  rw [parseRules]
  split
  · rename_i heq
    rw [h] at heq
    cases heq
    rfl
  · rename_i heq
    rw [h] at heq
    cases heq

/-- A round that read a name goes on behind it. -/
theorem parseRules_next {stop : Nat} {rules rules' : List Text} {s rest : Text}
    (h : parseRound stop rules s = .next rules' rest) :
    parseRules stop rules s = parseRules stop rules' rest := by
  rw [parseRules]
  split
  · rename_i heq
    rw [h] at heq
    cases heq
  · rename_i heq
    rw [h] at heq
    cases heq
    rfl

/-- What a round leaves, when more text follows. -/
def Round.followedBy (rest : Text) : Round → Round
  | .done marker => .done marker
  | .next rules s => .next rules (s ++ rest)

variable {rest : Text} (hrest : EndsLine rest)

include hrest

theorem skipInlineWs_append (s : Text) : skipInlineWs (s ++ rest) = skipInlineWs s ++ rest :=
  hrest.dropWhile rfl s

theorem skipIdent_append (s : Text) : skipIdent (s ++ rest) = skipIdent s ++ rest :=
  hrest.dropWhile rfl s

/-- A round that does not reach the end of the comment does not notice it. -/
theorem parseRound_append (rules : List Text) (s : Text) :
    parseRound rest.length rules (s ++ rest) = (parseRound 0 rules s).followedBy rest := by
  simp only [parseRound, skipInlineWs_append hrest, skipIdent_append hrest,
    hrest.takeWhile (p := isIdentChar) rfl, List.length_append]
  cases s with
  | nil => simp [Round.followedBy]
  | cons c cs =>
      have hlong : ¬ (c :: cs).length + rest.length ≤ rest.length := by
        rw [List.length_cons]
        omega
      have hlong' : ¬ (c :: cs).length ≤ 0 := by simp
      rw [if_neg hlong, if_neg hlong']
      cases skipInlineWs (c :: cs) with
      | nil => simp [Round.followedBy]
      | cons d ds =>
          have hin : rest.length < ds.length + 1 + rest.length := by omega
          simp only [hin, true_and, List.cons_append, List.head?_cons, List.length_cons,
            Nat.zero_lt_succ]
          by_cases hd : some d = some ')'
          · rw [if_pos hd, if_pos hd]
            rfl
          · rw [if_neg hd, if_neg hd]
            by_cases hname : List.takeWhile isIdentChar (d :: ds) = []
            · rw [if_pos hname, if_pos hname]
              rfl
            · rw [if_neg hname, if_neg hname]
              -- behind a name: the line ends, a comma, a parenthesis, or anything else
              cases skipInlineWs (skipIdent (d :: ds)) with
              | nil =>
                  rcases hrest with rfl | ⟨t, rfl⟩
                  · rfl
                  · rfl
              | cons e es =>
                  by_cases hcomma : e = ','
                  · subst hcomma
                    have hes : rest.length < es.length + rest.length + 1 := by omega
                    simp [Round.followedBy, hes]
                  · by_cases hclose : e = ')'
                    · subst hclose
                      have hes : rest.length < es.length + rest.length + 1 := by omega
                      simp [Round.followedBy, hes]
                    · simp [Round.followedBy, hcomma, hclose]

/-- The list is read within its line. -/
theorem parseRules_append (rules : List Text) (s : Text) :
    parseRules rest.length rules (s ++ rest) = parseRules 0 rules s := by
  have hround := parseRound_append hrest rules s
  cases h : parseRound 0 rules s with
  | done m =>
      rw [h] at hround
      rw [parseRules_done h, parseRules_done hround]
  | next rules' s' =>
      rw [h] at hround
      rw [parseRules_next h, parseRules_next hround]
      exact parseRules_append rules' s'
  termination_by s.length
  decreasing_by exact parseRound_lt h

theorem startsWith_append {needle : Text} (hneedle : '\n' ∉ needle) (s : Text) :
    startsWith (s ++ rest) needle = startsWith s needle := by
  rw [startsWith, startsWith]
  induction needle generalizing s with
  | nil => rfl
  | cons c cs ih =>
      have hc : c ≠ '\n' := fun heq => hneedle (heq ▸ List.mem_cons_self ..)
      cases s with
      | nil =>
          rcases hrest with rfl | ⟨t, rfl⟩
          · rfl
          · show ((c == '\n') && _) = false
            simp [hc]
      | cons d ds =>
          rw [List.cons_append, List.isPrefixOf, List.isPrefixOf,
            ih (fun hmem => hneedle (List.mem_cons_of_mem _ hmem))]

/-- **The parser stays within its comment.** -/
theorem parseMarker_append (body : Text) :
    parseMarker (body ++ rest) rest.length = parseMarker body 0 := by
  have hskip := skipInlineWs_append hrest
  have hdrop : ∀ {s needle : Text}, startsWith s needle = true →
      (s ++ rest).drop needle.length = s.drop needle.length ++ rest := by
    intro s needle h
    have hle : needle.length ≤ s.length := (List.isPrefixOf_iff_prefix.mp h).length_le
    exact List.drop_append_of_le_length hle
  simp only [parseMarker, hskip]
  rw [startsWith_append hrest (by decide)]
  by_cases hmarker : startsWith (skipInlineWs body) kMarker = true
  · simp only [hmarker, Bool.not_true, Bool.false_eq_true, if_false, hdrop hmarker, hskip]
    rw [startsWith_append hrest (by decide)]
    by_cases hallow :
        startsWith (skipInlineWs ((skipInlineWs body).drop kMarker.length)) kAllow = true
    · simp only [hallow, Bool.not_true, Bool.false_eq_true, if_false, hdrop hallow, hskip]
      cases skipInlineWs ((skipInlineWs ((skipInlineWs body).drop kMarker.length)).drop
          kAllow.length) with
      | nil =>
          rcases hrest with rfl | ⟨t, rfl⟩
          · rfl
          · rfl
      | cons c cs =>
          by_cases hopen : c = '('
          · subst hopen
            have hin : rest.length < cs.length + rest.length + 1 := by omega
            simp only [List.cons_append, List.length_cons, List.length_append, hin, if_true,
              Nat.zero_lt_succ]
            exact parseRules_append hrest [] cs
          · simp [hopen]
    · simp [hallow]
  · simp [hmarker]

omit hrest

/-! ## §4. The parser and the grammar. -/

theorem skipInlineWs_blanks {a s : Text} {c : Char} (ha : Blanks a) (hc : isSpaceOrTab c = false) :
    skipInlineWs (a ++ c :: s) = c :: s := by
  rw [skipInlineWs, List.dropWhile_append_of_pos ha, List.dropWhile_cons_of_neg (by simp [hc])]

theorem ident_not_blank {c : Char} (h : isIdentChar c = true) : isSpaceOrTab c = false := by
  cases hc : isSpaceOrTab c with
  | false => rfl
  | true =>
      have hblank : c = ' ' ∨ c = '\t' := by simpa [isSpaceOrTab] using hc
      rcases hblank with rfl | rfl
      · exact absurd h (by decide)
      · exact absurd h (by decide)

theorem blank_not_ident {c : Char} (h : isSpaceOrTab c = true) : isIdentChar c = false := by
  cases hc : isIdentChar c with
  | false => rfl
  | true => rw [ident_not_blank hc] at h; cases h

/-- The round over a name. -/
theorem parseRound_name (rules : List Text) {a n b t : Text} {d : Char} (ha : Blanks a)
    (hn : Name n) (hb : Blanks b) (hd : isIdentChar d = false) (hd' : isSpaceOrTab d = false) :
    parseRound 0 rules (a ++ (n ++ (b ++ d :: t))) =
      if d = ',' then .next (rules ++ [n]) t
      else .done ⟨rules ++ [n], decide (d = ')')⟩ := by
  have ⟨hne, hident⟩ := hn
  have hskip : skipInlineWs (a ++ (n ++ (b ++ d :: t))) = n ++ (b ++ d :: t) := by
    cases n with
    | nil => exact absurd rfl hne
    | cons c cs => exact skipInlineWs_blanks ha (ident_not_blank (hident c (List.mem_cons_self ..)))
  -- the name ends where the blanks or `d` begin
  have hstop : (b ++ d :: t).takeWhile isIdentChar = []
      ∧ (b ++ d :: t).dropWhile isIdentChar = b ++ d :: t := by
    cases b with
    | nil => simp [hd]
    | cons c cs => simp [blank_not_ident (hb c (List.mem_cons_self ..))]
  have htake : (n ++ (b ++ d :: t)).takeWhile isIdentChar = n := by
    rw [List.takeWhile_append_of_pos hident, hstop.1, List.append_nil]
  have hdrop : skipIdent (n ++ (b ++ d :: t)) = b ++ d :: t := by
    rw [skipIdent, List.dropWhile_append_of_pos hident, hstop.2]
  have hlong : ¬ (a ++ (n ++ (b ++ d :: t))).length ≤ 0 := by simp
  have hclose : ¬ (0 < (n ++ (b ++ d :: t)).length
      ∧ (n ++ (b ++ d :: t)).head? = some ')') := by
    rintro ⟨-, hhead⟩
    cases n with
    | nil => exact hne rfl
    | cons c cs =>
        cases hhead
        exact absurd (hident ')' (List.mem_cons_self ..)) (by decide)
  simp only [parseRound]
  rw [if_neg hlong, hskip, if_neg hclose, htake, if_neg hne, hdrop, skipInlineWs_blanks hb hd']
  by_cases hcomma : d = ','
  · subst hcomma
    simp
  · by_cases hparen : d = ')'
    · subst hparen
      simp
    · simp [hcomma, hparen]

/-- Lists of names are read to their end. -/
theorem parseRules_of_nameList {list : Text} {ns : List Text} (h : NameList list ns) (tail : Text)
    (rules : List Text) : parseRules 0 rules (list ++ ')' :: tail) = ⟨rules ++ ns, true⟩ := by
  induction h generalizing rules with
  | @blank a ha =>
      have hround : parseRound 0 rules (a ++ ')' :: tail) = .done ⟨rules, true⟩ := by
        simp only [parseRound, skipInlineWs_blanks ha (show isSpaceOrTab ')' = false from rfl)]
        simp
      rw [parseRules_done hround, List.append_nil]
  | @last a n b ha hn hb =>
      have hround := parseRound_name rules (t := tail) ha hn hb (show isIdentChar ')' = false from rfl)
        rfl
      rw [List.append_assoc, List.append_assoc]
      exact parseRules_done hround
  | @more a n b rest ns ha hn hb _ ih =>
      have hround := parseRound_name rules (t := rest ++ ')' :: tail) ha hn hb
        (show isIdentChar ',' = false from rfl) rfl
      rw [List.append_assoc, List.append_assoc, List.append_assoc, List.cons_append,
        parseRules_next hround, ih, List.append_assoc]
      rfl

theorem blanks_takeWhile (s : Text) : Blanks (s.takeWhile isSpaceOrTab) :=
  fun _ hc => List.mem_takeWhile_imp hc

/-- What a round has read. -/
theorem parseRound_inv (rules : List Text) (s : Text) :
    (∃ out, parseRound 0 rules s = .done ⟨out, false⟩)
      ∨ (∃ a t, Blanks a ∧ s = a ++ ')' :: t)
      ∨ ∃ a n b d t, Blanks a ∧ Name n ∧ Blanks b ∧ (d = ',' ∨ d = ')')
        ∧ s = a ++ (n ++ (b ++ d :: t)) := by
  cases s with
  | nil => exact Or.inl ⟨rules, rfl⟩
  | cons c cs =>
      have hs : (c :: cs).takeWhile isSpaceOrTab ++ skipInlineWs (c :: cs) = c :: cs :=
        List.takeWhile_append_dropWhile
      have ha := blanks_takeWhile (c :: cs)
      have hlong : ¬ (c :: cs).length ≤ 0 := by simp
      simp only [parseRound]
      rw [if_neg hlong]
      cases hi : skipInlineWs (c :: cs) with
      | nil => exact Or.inl ⟨rules, by simp⟩
      | cons d ds =>
          rw [hi] at hs
          by_cases hd : d = ')'
          · subst hd
            exact Or.inr (Or.inl ⟨_, ds, ha, hs.symm⟩)
          · have hclose : ¬ (0 < (d :: ds).length ∧ (d :: ds).head? = some ')') := by
              rintro ⟨-, hhead⟩
              exact hd (Option.some.inj hhead)
            rw [if_neg hclose]
            -- no name at all is an error
            by_cases hn : (d :: ds).takeWhile isIdentChar = []
            · rw [if_pos hn]
              exact Or.inl ⟨rules, rfl⟩
            · rw [if_neg hn]
              have hname : Name ((d :: ds).takeWhile isIdentChar) :=
                ⟨hn, fun _ hc => List.mem_takeWhile_imp hc⟩
              have hds : (d :: ds).takeWhile isIdentChar ++ skipIdent (d :: ds) = d :: ds :=
                List.takeWhile_append_dropWhile
              have hj : (skipIdent (d :: ds)).takeWhile isSpaceOrTab
                  ++ skipInlineWs (skipIdent (d :: ds)) = skipIdent (d :: ds) :=
                List.takeWhile_append_dropWhile
              have hb := blanks_takeWhile (skipIdent (d :: ds))
              cases hx : skipInlineWs (skipIdent (d :: ds)) with
              | nil => exact Or.inl ⟨_, rfl⟩
              | cons e es =>
                  rw [hx] at hj
                  by_cases he : e = ',' ∨ e = ')'
                  · refine Or.inr (Or.inr ⟨_, _, _, e, es, ha, hname, hb, he, ?_⟩)
                    rw [hj, hds, hs]
                  · obtain ⟨hcomma, hparen⟩ := not_or.mp he
                    exact Or.inl ⟨rules ++ [(d :: ds).takeWhile isIdentChar], by
                      simp [hcomma, hparen]⟩

/-- What is read to its end is a list of names. -/
theorem nameList_of_parseRules (rules out : List Text) (s : Text)
    (h : parseRules 0 rules s = ⟨out, true⟩) :
    ∃ list tail ns, s = list ++ ')' :: tail ∧ out = rules ++ ns ∧ NameList list ns := by
  rcases parseRound_inv rules s with ⟨out', hbad⟩ | ⟨a, t, ha, rfl⟩ | ⟨a, n, b, d, t, ha, hn, hb, hd, hs⟩
  · rw [parseRules_done hbad] at h
    cases h
  · have hlist := parseRules_of_nameList (.blank ha) t rules
    rw [h] at hlist
    cases hlist
    exact ⟨a, t, [], rfl, rfl, .blank ha⟩
  · have hident : isIdentChar d = false := by rcases hd with rfl | rfl <;> rfl
    have hspace : isSpaceOrTab d = false := by rcases hd with rfl | rfl <;> rfl
    have hround := parseRound_name rules (t := t) ha hn hb hident hspace
    rw [← hs] at hround
    -- a comma goes on, a parenthesis ends the list
    rcases hd with rfl | rfl
    · rw [if_pos rfl] at hround
      rw [parseRules_next hround] at h
      have ⟨list, tail, ns, ht, hout, hlist⟩ := nameList_of_parseRules _ out t h
      refine ⟨a ++ (n ++ (b ++ ',' :: list)), tail, n :: ns, ?_, ?_, .more ha hn hb hlist⟩
      · rw [hs, ht]
        simp
      · rw [hout, List.append_assoc]
        rfl
    · rw [if_neg (by decide)] at hround
      rw [parseRules_done hround] at h
      cases h
      refine ⟨a ++ (n ++ b), t, [n], ?_, rfl, .last ha hn hb⟩
      rw [hs, List.append_assoc, List.append_assoc]
  termination_by s.length
  decreasing_by
    rw [hs]
    simp only [List.length_append, List.length_cons]
    omega

theorem skipInlineWs_word {a word s : Text} (ha : Blanks a) (hne : word ≠ [])
    (hword : word.head?.all (fun c => !isSpaceOrTab c) = true) :
    skipInlineWs (a ++ (word ++ s)) = word ++ s := by
  cases word with
  | nil => exact absurd rfl hne
  | cons c cs => exact skipInlineWs_blanks ha (by simpa using hword)

/-- A text, up to a word it begins with after blanks. -/
theorem exists_of_startsWith {s word : Text} (h : startsWith (skipInlineWs s) word = true) :
    ∃ a, Blanks a ∧ s = a ++ (word ++ (skipInlineWs s).drop word.length) := by
  have ⟨rest, hrest⟩ := List.isPrefixOf_iff_prefix.mp h
  refine ⟨s.takeWhile isSpaceOrTab, blanks_takeWhile s, ?_⟩
  rw [← hrest, List.drop_left, hrest]
  exact List.takeWhile_append_dropWhile.symm

/-- The marker word is looked for behind blanks. -/
theorem triggered_iff (body : Text) :
    startsWith (skipInlineWs body) kMarker = true ↔ Triggered body := by
  constructor
  · intro h
    have ⟨a, ha, hbody⟩ := exists_of_startsWith h
    exact ⟨a, _, ha, hbody⟩
  · rintro ⟨a, rest, ha, rfl⟩
    rw [skipInlineWs_word ha (show kMarker ≠ [] from nofun) rfl]
    exact List.isPrefixOf_iff_prefix.mpr ⟨rest, rfl⟩

/-- **The parser accepts exactly the markers**, and what follows them. -/
theorem parseMarker_iff (body : Text) (names : List Text) :
    (parseMarker body 0 = ⟨names, true⟩ ∧ names ≠ []) ↔ ∃ tail, MarkerText body names tail := by
  constructor
  · rintro ⟨h, hne⟩
    have hmarker : startsWith (skipInlineWs body) kMarker = true := by
      cases hm : startsWith (skipInlineWs body) kMarker with
      | true => rfl
      | false => simp [parseMarker, hm] at h
    have ⟨a, ha, hbody⟩ := exists_of_startsWith hmarker
    simp only [parseMarker, hmarker, Bool.not_true, Bool.false_eq_true, if_false] at h
    generalize (skipInlineWs body).drop kMarker.length = afterMarker at h hbody
    have hallow : startsWith (skipInlineWs afterMarker) kAllow = true := by
      cases hm : startsWith (skipInlineWs afterMarker) kAllow with
      | true => rfl
      | false => simp [hm] at h
    have ⟨b, hb, hafter⟩ := exists_of_startsWith hallow
    simp only [hallow, Bool.not_true, Bool.false_eq_true, if_false] at h
    generalize (skipInlineWs afterMarker).drop kAllow.length = afterAllow at h hafter
    have hc : afterAllow.takeWhile isSpaceOrTab ++ skipInlineWs afterAllow = afterAllow :=
      List.takeWhile_append_dropWhile
    split at h
    case h_1 rest hopen =>
      rw [if_pos (by simp)] at h
      have ⟨list, tail, ns, hrest, hns, hlist⟩ := nameList_of_parseRules [] names rest h
      refine ⟨tail, hne, a, b, _, list, ha, hb, blanks_takeWhile afterAllow, ?_, ?_⟩
      · rw [hns]
        exact hlist
      · rw [← hrest, ← hopen, hc, ← hafter]
        exact hbody
    case h_2 => cases h
  · rintro ⟨tail, hne, a, b, c, list, ha, hb, hc, hlist, rfl⟩
    have hmarker : ∀ s, startsWith (kMarker ++ s) kMarker = true := fun s =>
      List.isPrefixOf_iff_prefix.mpr ⟨s, rfl⟩
    have hallow : ∀ s, startsWith (kAllow ++ s) kAllow = true := fun s =>
      List.isPrefixOf_iff_prefix.mpr ⟨s, rfl⟩
    refine ⟨?_, hne⟩
    simp only [parseMarker, skipInlineWs_word ha (show kMarker ≠ [] from nofun) rfl, hmarker,
      List.drop_left, skipInlineWs_word hb (show kAllow ≠ [] from nofun) rfl, hallow,
      skipInlineWs_blanks hc (show isSpaceOrTab '(' = false from rfl), Bool.not_true,
      Bool.false_eq_true, if_false, List.length_cons, Nat.zero_lt_succ, if_true]
    rw [parseRules_of_nameList hlist tail []]
    rfl

/-- A marker is parsed, with its names. -/
theorem parseMarker_of_markerText {body tail : Text} {names : List Text}
    (h : MarkerText body names tail) : parseMarker body 0 = ⟨names, true⟩ :=
  ((parseMarker_iff body names).mpr ⟨tail, h⟩).1

/-- **What is parsed as a list of rules is a marker text**, and all of those are. -/
theorem parsed_iff (body : Text) :
    ((parseMarker body 0).wellFormed && !(parseMarker body 0).rules.isEmpty) = true ↔
      ∃ names tail, MarkerText body names tail := by
  constructor
  · intro hok
    rw [Bool.and_eq_true, Bool.not_eq_true', List.isEmpty_eq_false_iff] at hok
    have heq : parseMarker body 0 = ⟨(parseMarker body 0).rules, true⟩ := by
      rw [← hok.1]
    exact ⟨_, (parseMarker_iff body _).mp ⟨heq, hok.2⟩⟩
  · rintro ⟨names, tail, h⟩
    rw [parseMarker_of_markerText h]
    simp [h.1]

end ShaderClippy.Suppress
