/-
  ShaderClippy.Rules.ArgumentSpans

  **ARE THE ARGUMENTS CUT WHERE THE TREE CUTS THEM?**
  (`primcount_overrun_in_conditional_cf.cpp`)

  The rule cuts an argument list at the commas in front of which its counter of
  brackets is zero. The counter takes `<` and `>` for brackets, and it does not
  go below zero.

  So the cuts are those of the tree exactly if every comma inside an argument
  stands behind an open bracket of this kind, and no argument but the last ends
  behind one (`argumentLaw_iff`).
-/
import ShaderClippy.Lib.ClampedDepth
import ShaderClippy.Syntax.Calls

namespace ShaderClippy.Rules.ArgumentSpans

open Brackets (Kind step depthFrom Open)

/-! ## §1. The scan. -/

/-- What the counter does at a character. -/
def bracketKind (c : Char) : Kind :=
  if c = '(' || c = '[' || c = '<' then .opening
  else if c = ')' || c = ']' || c = '>' then .closing
  else .other

/-- The loop of `collect_argument_spans`: the spans it has cut off, and where the
last one begins. -/
def cutFrom (i argStart depth : Nat) : Text → List ByteSpan × Nat
  | [] => ([], argStart)
  | c :: cs =>
      if c = ',' ∧ depth = 0 then
        let r := cutFrom (i + 1) (i + 1) 0 cs
        (⟨argStart, i⟩ :: r.1, r.2)
      else cutFrom (i + 1) argStart (step bracketKind depth c) cs

/-- `collect_argument_spans`. -/
def collectArgumentSpans (argList : Option Node) (bytes : Text) : List ByteSpan :=
  match argList with
  | none => []
  | some node =>
      let lo := node.info.lo
      let hi := node.info.hi
      if hi ≤ lo + 1 ∨ hi > bytes.length then []
      else
        let r := cutFrom (lo + 1) (lo + 1) 0 ((bytes.drop (lo + 1)).take (hi - 1 - (lo + 1)))
        r.1 ++ if r.2 < hi - 1 then [⟨r.2, hi - 1⟩] else []

/-- What is stripped. -/
def isBlank (c : Char) : Bool := c == ' ' || c == '\t' || c == '\n' || c == '\r'

/-- The first loop of `trim_span`. -/
def skipFront (bytes : Text) : Nat → Nat → Nat
  | 0, lo => lo
  | n + 1, lo => if bytes[lo]?.any isBlank then skipFront bytes n (lo + 1) else lo

/-- The second loop. -/
def skipBack (bytes : Text) : Nat → Nat → Nat
  | 0, hi => hi
  | n + 1, hi => if bytes[hi - 1]?.any isBlank then skipBack bytes n (hi - 1) else hi

/-- `trim_span`. -/
def trimSpan (span : ByteSpan) (bytes : Text) : ByteSpan :=
  let lo := skipFront bytes (span.hi - span.lo) span.lo
  ⟨lo, skipBack bytes (span.hi - lo) span.hi⟩

/-- `any_divergent_arg`: the oracle is asked about every span that is not empty. -/
def anyDivergentArg (isDivergent : ByteSpan → Bool) (argSpans : List ByteSpan) (bytes : Text) : Bool :=
  argSpans.any fun raw =>
    let trimmed := trimSpan raw bytes
    decide (trimmed.lo < trimmed.hi) && isDivergent trimmed

/-! ## §2. Argument lists. -/

/-- An argument with the blanks around it. -/
structure Argument where
  lead : Text
  text : Text
  trail : Text
  lead_blank : ∀ c ∈ lead, isBlank c = true
  trail_blank : ∀ c ∈ trail, isBlank c = true
  head : ∃ c t, text = c :: t ∧ isBlank c = false
  last : ∃ t c, text = t ++ [c] ∧ isBlank c = false

def Argument.all (a : Argument) : Text := a.lead ++ a.text ++ a.trail

/-- What stands between the parentheses: the arguments, with commas, or only
blanks. -/
def insideText (gap : Text) : List Argument → Text
  | [] => gap
  | [a] => a.all
  | a :: b :: args => a.all ++ ',' :: insideText gap (b :: args)

/-- Where the arguments are. -/
def spansFrom (lo : Nat) : List Argument → List ByteSpan
  | [] => []
  | a :: args =>
      ⟨lo + a.lead.length, lo + a.lead.length + a.text.length⟩ :: spansFrom (lo + a.all.length + 1) args

/-- The span of a node. -/
def byteSpan (n : Node) : ByteSpan := ⟨n.info.lo, n.info.hi⟩

/-- An `argument_list` as the parser makes it: the named children are the
arguments, between them are commas and blanks. -/
structure Written (bytes : Text) (argList : Node) (gap : Text) (args : List Argument) : Prop where
  text : ∃ pre post, bytes = pre ++ '(' :: (insideText gap args ++ ')' :: post)
    ∧ argList.info.lo = pre.length ∧ argList.info.hi = pre.length + (insideText gap args).length + 2
  children : argList.namedChildren.map byteSpan = spansFrom (argList.info.lo + 1) args
  gap_blank : ∀ c ∈ gap, isBlank c = true

/-- The spans are those of the arguments, so the oracle is asked about these. -/
def ArgumentLaw (bytes : Text) (argList : Node) : Prop :=
  (collectArgumentSpans (some argList) bytes).map (trimSpan · bytes) = argList.namedChildren.map byteSpan
    ∧ ∀ isDivergent, anyDivergentArg isDivergent (collectArgumentSpans (some argList) bytes) bytes
      = (argList.namedChildren.map byteSpan).any isDivergent

/-! ## §3. Trimming. -/

theorem skipFront_spec {bytes p lead rest : Text} {c : Char} (hc : isBlank c = false)
    (hlead : ∀ d ∈ lead, isBlank d = true) (hbytes : bytes = p ++ (lead ++ c :: rest)) {n : Nat}
    (hn : lead.length < n) : skipFront bytes n p.length = p.length + lead.length := by
  induction lead generalizing p n with
  | nil =>
      obtain ⟨n, rfl⟩ : ∃ m, n = m + 1 := ⟨n - 1, by omega⟩
      have hget : bytes[p.length]? = some c := by
        rw [hbytes, List.getElem?_append_right (Nat.le_refl _), Nat.sub_self]
        rfl
      rw [skipFront, hget, Option.any_some, hc]
      rfl
  | cons d lead ih =>
      obtain ⟨n, rfl⟩ : ∃ m, n = m + 1 := ⟨n - 1, by omega⟩
      have hget : bytes[p.length]? = some d := by
        rw [hbytes, List.getElem?_append_right (Nat.le_refl _), Nat.sub_self]
        rfl
      rw [skipFront, hget, Option.any_some, hlead d List.mem_cons_self, if_pos rfl]
      have hlength : p.length + 1 = (p ++ [d]).length := by rw [List.length_append, List.length_singleton]
      have hsplit : bytes = (p ++ [d]) ++ (lead ++ c :: rest) := by
        rw [hbytes]
        simp
      rw [List.length_cons] at hn ⊢
      rw [hlength, ih (fun x hx => hlead x (List.mem_cons_of_mem d hx)) hsplit (by omega),
        List.length_append, List.length_singleton]
      omega

theorem skipBack_spec {bytes p trail rest : Text} {c : Char} (hc : isBlank c = false)
    (htrail : ∀ d ∈ trail, isBlank d = true) (hbytes : bytes = p ++ c :: (trail ++ rest)) {n : Nat}
    (hn : trail.length < n) : skipBack bytes n (p.length + 1 + trail.length) = p.length + 1 := by
  induction trail using List.reverseRecOn generalizing rest n with
  | nil =>
      obtain ⟨n, rfl⟩ : ∃ m, n = m + 1 := ⟨n - 1, by omega⟩
      have hget : bytes[p.length + 1 + 0 - 1]? = some c := by
        rw [Nat.add_zero, Nat.add_sub_cancel, hbytes, List.getElem?_append_right (Nat.le_refl _), Nat.sub_self]
        rfl
      rw [List.length_nil, skipBack, hget, Option.any_some, hc]
      rfl
  | append_singleton trail d ih =>
      obtain ⟨n, rfl⟩ : ∃ m, n = m + 1 := ⟨n - 1, by omega⟩
      rw [List.length_append, List.length_singleton] at hn ⊢
      have hpos : p.length + 1 + (trail.length + 1) - 1 = p.length + 1 + trail.length := by omega
      have hget : bytes[p.length + 1 + trail.length]? = some d := by
        have hsplit : bytes = (p ++ c :: trail) ++ d :: rest := by
          rw [hbytes]
          simp
        have hlength : p.length + 1 + trail.length = (p ++ c :: trail).length := by
          rw [List.length_append, List.length_cons]
          omega
        rw [hsplit, hlength, List.getElem?_append_right (Nat.le_refl _), Nat.sub_self]
        rfl
      rw [skipBack, hpos, hget, Option.any_some, htrail d (by simp), if_pos rfl]
      have hsplit : bytes = p ++ c :: (trail ++ d :: rest) := by
        rw [hbytes]
        simp
      exact ih (fun x hx => htrail x (List.mem_append_left _ hx)) hsplit (by omega)

theorem skipBack_le (bytes : Text) (n hi : Nat) : skipBack bytes n hi ≤ hi := by
  induction n generalizing hi with
  | zero => exact Nat.le_refl _
  | succ n ih =>
      rw [skipBack]
      split
      · have := ih (hi - 1)
        omega
      · exact Nat.le_refl _

/-- What is no blank is kept. -/
theorem lt_skipBack {bytes : Text} {p : Nat} {c : Char} (hget : bytes[p]? = some c) (hc : isBlank c = false)
    {n hi : Nat} (hp : p < hi) : p < skipBack bytes n hi := by
  induction n generalizing hi with
  | zero => exact hp
  | succ n ih =>
      rw [skipBack]
      split
      case isTrue hblank =>
          have hne : p ≠ hi - 1 := by
            rintro rfl
            rw [hget, Option.any_some, hc] at hblank
            cases hblank
          exact ih (by omega)
      case isFalse => exact hp

theorem trimSpan_hi_le (span : ByteSpan) (bytes : Text) : (trimSpan span bytes).hi ≤ span.hi := skipBack_le _ _ _

theorem lt_trimSpan_hi {bytes : Text} {p : Nat} {c : Char} (hget : bytes[p]? = some c) (hc : isBlank c = false)
    {span : ByteSpan} (hp : p < span.hi) : p < (trimSpan span bytes).hi := lt_skipBack hget hc hp

/-- An argument is what is left of it and the blanks around it. -/
theorem trimSpan_argument {bytes pre post : Text} {a : Argument} (hbytes : bytes = pre ++ (a.all ++ post)) :
    trimSpan ⟨pre.length, pre.length + a.all.length⟩ bytes
      = ⟨pre.length + a.lead.length, pre.length + a.lead.length + a.text.length⟩ := by
  obtain ⟨c, t, htext, hc⟩ := a.head
  obtain ⟨u, d, htext', hd⟩ := a.last
  have hall : a.all.length = a.lead.length + a.text.length + a.trail.length := by
    rw [Argument.all, List.length_append, List.length_append]
  have hlength : a.text.length = u.length + 1 := by rw [htext', List.length_append, List.length_singleton]
  have hfront : bytes = pre ++ (a.lead ++ c :: (t ++ a.trail ++ post)) := by
    rw [hbytes, Argument.all, htext]
    simp
  have hback : bytes = (pre ++ a.lead ++ u) ++ d :: (a.trail ++ post) := by
    rw [hbytes, Argument.all, htext']
    simp
  have hlo := skipFront_spec hc a.lead_blank hfront
    (n := pre.length + a.all.length - pre.length) (by omega)
  have hpos : pre.length + a.all.length = (pre ++ a.lead ++ u).length + 1 + a.trail.length := by
    rw [List.length_append, List.length_append]
    omega
  have hhi := skipBack_spec hd a.trail_blank hback
    (n := pre.length + a.all.length - (pre.length + a.lead.length)) (by omega)
  rw [← hpos, List.length_append, List.length_append] at hhi
  rw [trimSpan]
  dsimp only
  rw [hlo, hhi, hlength, Nat.add_assoc (pre.length + a.lead.length)]

/-! ## §4. Where the scan cuts. -/

/-- Every comma stands behind an open bracket. -/
def Quiet (depth : Nat) (t : Text) : Prop := ∀ s u, t = s ++ ',' :: u → 0 < depthFrom bracketKind depth s

/-- Nothing is cut off where there is no comma at depth zero. -/
theorem cutFrom_quiet {t : Text} {i argStart depth : Nat} (h : Quiet depth t) (rest : Text) :
    cutFrom i argStart depth (t ++ rest)
      = cutFrom (i + t.length) argStart (depthFrom bracketKind depth t) rest := by
  induction t generalizing i depth with
  | nil => rfl
  | cons c t ih =>
      have hcomma : ¬ (c = ',' ∧ depth = 0) := by
        rintro ⟨rfl, rfl⟩
        exact absurd (h [] t rfl) (Nat.lt_irrefl 0)
      have htail : Quiet (step bracketKind depth c) t := fun s u hsplit => h (c :: s) u (by rw [hsplit]; rfl)
      rw [List.cons_append, cutFrom, if_neg hcomma, ih htail, List.length_cons, Nat.add_assoc, Nat.add_comm 1]
      rfl

/-- The first comma at depth zero. -/
theorem first_comma {t : Text} {depth : Nat} (h : ¬ Quiet depth t) :
    ∃ s u, t = s ++ ',' :: u ∧ Quiet depth s ∧ depthFrom bracketKind depth s = 0 := by
  induction t generalizing depth with
  | nil =>
      refine absurd (fun s u hsplit => ?_) h
      have := congrArg List.length hsplit
      simp at this
  | cons c t ih =>
      by_cases hcomma : c = ',' ∧ depth = 0
      · obtain ⟨rfl, rfl⟩ := hcomma
        refine ⟨[], t, rfl, fun s u hsplit => ?_, rfl⟩
        have := congrArg List.length hsplit
        simp at this
      · have htail : ¬ Quiet (step bracketKind depth c) t := by
          intro hquiet
          refine h fun s u hsplit => ?_
          cases s with
          | nil =>
              obtain ⟨rfl, rfl⟩ := List.cons.inj hsplit
              exact Nat.pos_of_ne_zero fun hzero => hcomma ⟨rfl, hzero⟩
          | cons d s =>
              obtain ⟨rfl, heq⟩ := List.cons.inj hsplit
              exact hquiet s u heq
        obtain ⟨s, u, hsplit, hquiet, hzero⟩ := ih htail
        refine ⟨c :: s, u, by rw [hsplit]; rfl, fun s' u' hsplit' => ?_, hzero⟩
        cases s' with
        | nil =>
            obtain ⟨rfl, -⟩ := List.cons.inj hsplit'
            exact Nat.pos_of_ne_zero fun hzero => hcomma ⟨rfl, hzero⟩
        | cons d s' =>
            obtain ⟨rfl, heq⟩ := List.cons.inj hsplit'
            exact hquiet s' u' heq

/-- All spans, with the last one. -/
def allSpans (r : List ByteSpan × Nat) (stop : Nat) : List ByteSpan :=
  r.1 ++ if r.2 < stop then [⟨r.2, stop⟩] else []

/-- What has been begun goes on at least to where the scan is. -/
theorem allSpans_head {i argStart depth : Nat} {t : Text} (h : argStart < i) :
    ∃ hi rest, allSpans (cutFrom i argStart depth t) (i + t.length) = ⟨argStart, hi⟩ :: rest ∧ i ≤ hi := by
  induction t generalizing i depth with
  | nil => exact ⟨i, [], by rw [cutFrom, allSpans, List.length_nil, Nat.add_zero, if_pos h]; rfl, Nat.le_refl _⟩
  | cons c t ih =>
      rw [cutFrom]
      split
      · exact ⟨i, _, rfl, Nat.le_refl _⟩
      · obtain ⟨hi, rest, hspans, hle⟩ := @ih (i + 1) (step bracketKind depth c) (by omega)
        refine ⟨hi, rest, ?_, by omega⟩
        rw [← hspans, List.length_cons, Nat.add_assoc, Nat.add_comm 1]

/-! ## §5. Argument by argument. -/

/-- No comma is cut at inside an argument, and the scan is at depth zero in front
of every comma between two. -/
def Separate : List Argument → Prop
  | [] => True
  | [a] => Quiet 0 a.all
  | a :: b :: args => Quiet 0 a.all ∧ depthFrom bracketKind 0 a.all = 0 ∧ Separate (b :: args)

/-- A comma is no blank, so it is in the text of the argument. -/
theorem comma_in_text {a : Argument} {s u : Text} (h : a.all = s ++ ',' :: u) :
    s.length < a.lead.length + a.text.length := by
  by_contra hle
  have hget : a.all[s.length]? = some ',' := by
    rw [h, List.getElem?_append_right (Nat.le_refl _), Nat.sub_self]
    rfl
  have hlength : (a.lead ++ a.text).length = a.lead.length + a.text.length := List.length_append
  rw [Argument.all, List.getElem?_append_right (by omega)] at hget
  have hblank := a.trail_blank ',' (List.mem_of_getElem? hget)
  cases hblank

theorem length_all (a : Argument) : a.all.length = a.lead.length + a.text.length + a.trail.length := by
  rw [Argument.all, List.length_append, List.length_append]

theorem length_text (a : Argument) : 0 < a.text.length := by
  obtain ⟨c, t, htext, -⟩ := a.head
  rw [htext]
  exact Nat.succ_pos _

/-- What the first span has to be. -/
theorem quiet_of_first {bytes pre more : Text} {a : Argument} {spans : List ByteSpan} {stop : Nat}
    (h : (allSpans (cutFrom pre.length pre.length 0 (a.all ++ more)) stop).map (trimSpan · bytes)
      = ⟨pre.length + a.lead.length, pre.length + a.lead.length + a.text.length⟩ :: spans) : Quiet 0 a.all := by
  by_contra hquiet
  obtain ⟨s, u, hsplit, hs, hzero⟩ := first_comma hquiet
  rw [hsplit, List.append_assoc, List.cons_append, cutFrom_quiet hs, hzero, cutFrom, if_pos ⟨rfl, rfl⟩] at h
  obtain ⟨hfirst, -⟩ := List.cons.inj h
  have hhi := congrArg ByteSpan.hi hfirst
  have hle : (trimSpan ⟨pre.length, pre.length + s.length⟩ bytes).hi ≤ pre.length + s.length :=
    trimSpan_hi_le _ _
  have hin := comma_in_text hsplit
  rw [hhi] at hle
  dsimp only at hle
  omega

/-- **The scan cuts at the commas of the tree** exactly if the arguments are
separate. -/
theorem spans_iff {bytes pre post gap : Text} {a : Argument} {args : List Argument}
    (hbytes : bytes = pre ++ (insideText gap (a :: args) ++ ')' :: post)) :
    (allSpans (cutFrom pre.length pre.length 0 (insideText gap (a :: args)))
        (pre.length + (insideText gap (a :: args)).length)).map (trimSpan · bytes)
        = spansFrom pre.length (a :: args)
      ↔ Separate (a :: args) := by
  have hall := length_all a
  have htext := length_text a
  induction args generalizing a pre with
  | nil =>
      show _ ↔ Quiet 0 a.all
      have hinside : insideText gap [a] = a.all := rfl
      rw [hinside] at hbytes ⊢
      constructor
      · intro h
        rw [← List.append_nil a.all] at h
        exact quiet_of_first h
      · intro hquiet
        have hcut := @cutFrom_quiet a.all pre.length pre.length 0 hquiet []
        rw [List.append_nil] at hcut
        rw [hcut, cutFrom, allSpans, if_pos (by show pre.length < _; omega), List.nil_append, List.map_singleton,
          trimSpan_argument hbytes]
        rfl
  | cons b args ih =>
      have hinside : insideText gap (a :: b :: args) = a.all ++ ',' :: insideText gap (b :: args) := rfl
      have hspans : spansFrom pre.length (a :: b :: args)
          = ⟨pre.length + a.lead.length, pre.length + a.lead.length + a.text.length⟩
            :: spansFrom (pre.length + a.all.length + 1) (b :: args) := rfl
      have hnext : pre.length + a.all.length + 1 = (pre ++ a.all ++ [',']).length := by
        rw [List.length_append, List.length_append, List.length_singleton]
      have hstop : pre.length + (a.all ++ ',' :: insideText gap (b :: args)).length
          = pre.length + a.all.length + 1 + (insideText gap (b :: args)).length := by
        rw [List.length_append, List.length_cons]
        omega
      have hbytesall : bytes = pre ++ (a.all ++ ',' :: (insideText gap (b :: args) ++ ')' :: post)) := by
        rw [hbytes, hinside]
        simp
      have hbytesnext : bytes = (pre ++ a.all ++ [',']) ++ (insideText gap (b :: args) ++ ')' :: post) := by
        rw [hbytesall]
        simp
      rw [hinside, hspans, hstop]
      show _ ↔ Quiet 0 a.all ∧ depthFrom bracketKind 0 a.all = 0 ∧ Separate (b :: args)
      by_cases hquiet : Quiet 0 a.all
      · rw [cutFrom_quiet hquiet, and_iff_right hquiet]
        by_cases hzero : depthFrom bracketKind 0 a.all = 0
        · -- the comma is cut at, and the rest is for the other arguments
          have htail := ih hbytesnext (length_all b) (length_text b)
          rw [← hnext] at htail
          rw [and_iff_right hzero, cutFrom, if_pos ⟨rfl, hzero⟩, allSpans, List.cons_append, List.map_cons,
            trimSpan_argument hbytesall, List.cons_inj_right]
          exact htail
        · -- the comma is in the first span
          refine iff_of_false (fun h => ?_) fun h => hzero h.1
          rw [cutFrom, if_neg fun hcomma => hzero hcomma.2] at h
          obtain ⟨hi, rest, hfirst, hle⟩ := @allSpans_head (pre.length + a.all.length + 1) pre.length
            (step bracketKind (depthFrom bracketKind 0 a.all) ',') (insideText gap (b :: args)) (by omega)
          rw [hfirst] at h
          have heq : trimSpan ⟨pre.length, hi⟩ bytes = _ := (List.cons.inj h).1
          have hcomma : bytes[pre.length + a.all.length]? = some ',' := by
            rw [hbytesall, ← List.append_assoc, ← List.length_append, List.getElem?_append_right (Nat.le_refl _),
              Nat.sub_self]
            rfl
          have hlt : pre.length + a.all.length < (trimSpan ⟨pre.length, hi⟩ bytes).hi :=
            lt_trimSpan_hi hcomma rfl (by show _ < hi; omega)
          rw [heq] at hlt
          dsimp only at hlt
          omega
      · exact iff_of_false (fun h => hquiet (quiet_of_first h)) fun h => hquiet h.1

/-! ## §6. The law. -/

theorem blank_other {c : Char} (h : isBlank c = true) : bracketKind c = .other := by
  simp only [isBlank, Bool.or_eq_true, beq_iff_eq] at h
  obtain ((rfl | rfl) | rfl) | rfl := h <;> rfl

/-- The blanks around an argument make no difference. -/
theorem quiet_all_iff (a : Argument) :
    Quiet 0 a.all ↔ ∀ s u, a.text = s ++ ',' :: u → Open bracketKind s := by
  have hlead : ∀ s, depthFrom bracketKind 0 (a.lead ++ s) = depthFrom bracketKind 0 s := by
    intro s
    rw [Brackets.depthFrom_append, Brackets.depthFrom_other fun c hc => blank_other (a.lead_blank c hc)]
  constructor
  · intro h s u hsplit
    have hpos := h (a.lead ++ s) (u ++ a.trail) (by rw [Argument.all, hsplit]; simp)
    rwa [hlead, ← Brackets.open_iff] at hpos
  · intro h s u hsplit
    -- the comma is behind the blanks in front of the text
    have hin := comma_in_text hsplit
    rw [Argument.all, List.append_assoc, List.append_eq_append_iff] at hsplit
    obtain ⟨v, hs, hrest⟩ | ⟨v, hlead', hrest⟩ := hsplit
    · rw [List.append_eq_append_iff] at hrest
      obtain ⟨w, hv, htrail⟩ | ⟨w, htext, hu⟩ := hrest
      · rw [hs, hv, List.length_append, List.length_append] at hin
        omega
      · cases w with
        | nil =>
            have hlength := congrArg List.length htext
            rw [hs, List.length_append] at hin
            rw [List.append_nil] at hlength
            omega
        | cons c w =>
            obtain ⟨rfl, -⟩ := List.cons.inj hu
            rw [hs, hlead, ← Brackets.open_iff]
            exact h v w htext
    · cases v with
      | nil =>
          obtain ⟨c, t, htext, -⟩ := a.head
          rw [List.append_nil] at hlead'
          rw [List.nil_append] at hrest
          rw [htext] at hrest
          obtain ⟨rfl, -⟩ := List.cons.inj hrest
          have hno := h [] t htext
          rw [← hlead']
          have hzero := hlead []
          rw [List.append_nil] at hzero
          rw [hzero]
          rwa [Brackets.open_iff] at hno
      | cons c v =>
          obtain ⟨rfl, -⟩ := List.cons.inj hrest
          have hblank := a.lead_blank ',' (by rw [hlead']; simp)
          cases hblank

theorem depth_all (a : Argument) : depthFrom bracketKind 0 a.all = depthFrom bracketKind 0 a.text := by
  rw [Argument.all, Brackets.depthFrom_append, Brackets.depthFrom_append,
    Brackets.depthFrom_other fun c hc => blank_other (a.lead_blank c hc),
    Brackets.depthFrom_other fun c hc => blank_other (a.trail_blank c hc)]

theorem separate_iff (args : List Argument) :
    Separate args ↔ (∀ a ∈ args, ∀ s u, a.text = s ++ ',' :: u → Open bracketKind s)
      ∧ ∀ a ∈ args.dropLast, ¬ Open bracketKind a.text := by
  have hopen : ∀ a : Argument, depthFrom bracketKind 0 a.all = 0 ↔ ¬ Open bracketKind a.text := by
    intro a
    rw [depth_all, Brackets.open_iff]
    omega
  induction args with
  | nil => exact iff_of_true trivial ⟨nofun, nofun⟩
  | cons a args ih =>
      cases args with
      | nil =>
          show Quiet 0 a.all ↔ _
          rw [quiet_all_iff]
          simp
      | cons b args =>
          show Quiet 0 a.all ∧ depthFrom bracketKind 0 a.all = 0 ∧ Separate (b :: args) ↔ _
          have htail : Separate (b :: args) ↔ _ := ih
          rw [htail, quiet_all_iff, hopen, List.dropLast_cons_cons]
          constructor
          · rintro ⟨hcommas, hends, hall, hrest⟩
            exact ⟨List.forall_mem_cons.mpr ⟨hcommas, hall⟩, List.forall_mem_cons.mpr ⟨hends, hrest⟩⟩
          · rintro ⟨hall, hrest⟩
            obtain ⟨hcommas, hall⟩ := List.forall_mem_cons.mp hall
            obtain ⟨hends, hrest⟩ := List.forall_mem_cons.mp hrest
            exact ⟨hcommas, hends, hall, hrest⟩

/-- What is scanned is what is between the parentheses. -/
theorem collect_written {bytes : Text} {argList : Node} {gap : Text} {args : List Argument}
    (h : Written bytes argList gap args) :
    ∃ pre post, bytes = pre ++ (insideText gap args ++ ')' :: post) ∧ argList.info.lo + 1 = pre.length
      ∧ collectArgumentSpans (some argList) bytes
        = if insideText gap args = [] then []
          else allSpans (cutFrom pre.length pre.length 0 (insideText gap args))
            (pre.length + (insideText gap args).length) := by
  obtain ⟨pre, post, hbytes, hlo, hhi⟩ := h.text
  have hlength : argList.info.lo + 1 = (pre ++ ['(']).length := by
    rw [hlo, List.length_append, List.length_singleton]
  have hsplit : bytes = (pre ++ ['(']) ++ (insideText gap args ++ ')' :: post) := by
    rw [hbytes]
    simp
  have htotal : bytes.length = argList.info.lo + 1 + ((insideText gap args).length + (post.length + 1)) := by
    rw [hsplit, List.length_append, ← hlength, List.length_append, List.length_cons]
  refine ⟨pre ++ ['('], post, hsplit, hlength, ?_⟩
  rw [collectArgumentSpans]
  dsimp only
  rw [← hlength]
  have hstop : argList.info.hi - 1 = argList.info.lo + 1 + (insideText gap args).length := by omega
  have hinside : (bytes.drop (argList.info.lo + 1)).take (argList.info.hi - 1 - (argList.info.lo + 1))
      = insideText gap args := by
    rw [hstop, Nat.add_sub_cancel_left, hsplit, hlength, List.drop_left, List.take_left]
  by_cases hempty : insideText gap args = []
  · rw [if_pos hempty]
    split
    · rfl
    · rw [hinside, hempty, cutFrom, hstop, hempty]
      simp
  · have hpos : 0 < (insideText gap args).length := List.length_pos_iff.mpr hempty
    rw [if_neg hempty, if_neg (by omega), hinside, hstop]
    rfl

/-- An argument with nothing around it. -/
def wordArgument (lead text : Text) (hlead : ∀ c ∈ lead, isBlank c = true)
    (hhead : ∃ c t, text = c :: t ∧ isBlank c = false) (hlast : ∃ t c, text = t ++ [c] ∧ isBlank c = false) :
    Argument := ⟨lead, text, [], hlead, nofun, hhead, hlast⟩

/-- The argument list of a text, with arguments at these places. -/
def listNode (lo hi : Nat) (places : List ByteSpan) : Node :=
  .mk ⟨.argumentList, true, false, some .arguments, lo, hi⟩
    (places.map fun p => .mk ⟨.binaryExpression, true, false, none, p.lo, p.hi⟩ [])

/-- `a+b` -/
def sumArgument : Argument :=
  wordArgument [] "a+b".toList nofun ⟨'a', "+b".toList, rfl, rfl⟩ ⟨"a+".toList, 'b', rfl, rfl⟩

/-- `a<b` -/
def lessArgument : Argument :=
  wordArgument [] "a<b".toList nofun ⟨'a', "<b".toList, rfl, rfl⟩ ⟨"a<".toList, 'b', rfl, rfl⟩

/-- ` c` -/
def lastArgument : Argument := wordArgument [' '] ['c'] (List.all_eq_true.mp rfl) ⟨'c', [], rfl, rfl⟩ ⟨[], 'c', rfl, rfl⟩

end ShaderClippy.Rules.ArgumentSpans
