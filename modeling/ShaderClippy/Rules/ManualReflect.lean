/-
  ShaderClippy.Rules.ManualReflect

  **`manual-reflect`**: `v - 2 * dot(n, v) * n` becomes `reflect(v, n)`.

  The rule compares the operands of the formula by their texts and does not look
  into a node that it reported. So its suggestions are apart: none is dropped
  when all are taken, and the shader keeps its value, for it is the formula of
  the intrinsic that is reported (`manualReflect_all`).
-/
import ShaderClippy.Rules.Idioms

namespace ShaderClippy.Rules

open Hlsl
open Munch (LexOK Seam render)

namespace ManualReflect

/-! ## §1. The rule. -/

def isFloatSuffix (c : Char) : Bool :=
  c == 'f' || c == 'F' || c == 'h' || c == 'H' || c == 'l' || c == 'L'

/-- The suffixes; an exponent is refused. -/
def suffixes : Text → Bool
  | 'e' :: _ => false
  | 'E' :: _ => false
  | t => t.all isFloatSuffix

/-- The text that `is_literal_two` accepts. -/
def isTwoText (text : Text) : Bool :=
  match skipOptionalPlus text with
  | '2' :: '.' :: t => suffixes (t.dropWhile (· == '0'))
  | '2' :: t => suffixes t
  | _ => false

/-- `is_literal_two`. -/
def isLiteralTwo (isType : Text → Bool) (node : Expr) : Bool := (numberOf isType node).any isTwoText

/-- `try_extract`: the factor `2 * dot(n, v)`, and the normal behind it. -/
def tryExtract (isType : Text → Bool) (v inner tail : Expr) : Option Expr :=
  match inner with
  | .binary il op ir =>
      if op.body ≠ ['*'] then none
      else
        (if isLiteralTwo isType il then some ir else if isLiteralTwo isType ir then some il else none).bind
          fun dot =>
            match callTo kDot dot with
            | some [da, db] =>
                if nodeText da = nodeText v ∧ nodeText db = nodeText tail
                  ∨ nodeText db = nodeText v ∧ nodeText da = nodeText tail then some tail
                else none
            | _ => none
  | _ => none

/-- `try_match_reflect_rhs`: the normal. -/
def tryMatchReflectRhs (isType : Text → Bool) (rhs v : Expr) : Option Expr :=
  match rhs with
  | .binary left op right =>
      if op.body ≠ ['*'] then none
      else (tryExtract isType v left right).or (tryExtract isType v right left)
  | _ => none

/-- `v - RHS`. -/
def find (isType : Text → Bool) : Expr → Option NamedCall
  | .binary lhs op rhs =>
      if op.body ≠ ['-'] then none
      else (tryMatchReflectRhs isType rhs lhs).map fun n => ⟨kReflect, lhs, some n⟩
  | _ => none

/-- The dash between the formula and its name, in UTF-8. -/
def dash : Text := [Char.ofNat 0xE2, Char.ofNat 0x80, Char.ofNat 0x94]

def message (v n : Text) : Text :=
  "`".toList ++ v ++ " - 2 * dot(".toList ++ n ++ ", ".toList ++ v ++ ") * ".toList ++ n
    ++ "` is the reflect formula ".toList ++ dash ++ " use `reflect(".toList ++ v ++ ", ".toList ++ n
    ++ ")`".toList

def description (v n : Text) : Text :=
  "replace with `reflect(".toList ++ v ++ ", ".toList ++ n ++ ")` ".toList ++ dash
    ++ " verify that argument order matches your incident/normal convention before applying".toList

/-- The diagnostic at a node. -/
def diagnostic (source : SourceId) (c : Ctx) (node : Expr) (r : NamedCall) : Diagnostic :=
  let v := nodeText r.first
  let n := r.second.elim [] nodeText
  { code := "manual-reflect".toList
    severity := .warning
    primarySpan := ⟨source, byteRange c node⟩
    message := message v n
    fixes := [nodeFix source c node (description v n) false r.text] }

/-- `walk`, from the root on. -/
def onTree (isType : Text → Bool) (source : SourceId) (root : Expr) : List Diagnostic :=
  visit (fun c node => (find isType node).map (diagnostic source c node)) true [] root

/-! ## §2. The formula. -/

variable {isType : Text → Bool}

/-- A fraction of zeros, and what is behind it. -/
theorem dropZeros_digits {t : Text} (h : (t.dropWhile (· == '0')).all isFloatSuffix = true) :
    (t.takeWhile Char.isDigit).all (· == '0') = true
      ∧ t.dropWhile Char.isDigit = t.dropWhile (· == '0') := by
  induction t with
  | nil => exact ⟨rfl, rfl⟩
  | cons c t ih =>
      by_cases hc : c = '0'
      · subst hc
        rw [List.dropWhile_cons_of_pos rfl] at h
        obtain ⟨htake, hdrop⟩ := ih h
        rw [List.takeWhile_cons_of_pos rfl, List.dropWhile_cons_of_pos rfl, List.dropWhile_cons_of_pos rfl,
          List.all_cons, htake]
        exact ⟨rfl, hdrop⟩
      · have hkeep : (c :: t).dropWhile (· == '0') = c :: t := List.dropWhile_cons_of_neg (by simpa using hc)
        rw [hkeep] at h ⊢
        have hsuffix : isFloatSuffix c = true := List.all_eq_true.mp h c List.mem_cons_self
        have hdigit : ¬ c.isDigit = true := by
          intro hd
          simp only [isFloatSuffix, Bool.or_eq_true, beq_iff_eq] at hsuffix
          obtain ((((rfl | rfl) | rfl) | rfl) | rfl) | rfl := hsuffix <;> exact absurd hd (by decide)
        rw [List.takeWhile_cons_of_neg hdigit, List.dropWhile_cons_of_neg hdigit]
        exact ⟨rfl, rfl⟩

theorem all_floatSuffix {t : Text} (h : t.all isFloatSuffix = true) : t.all isLiteralSuffixChar = true := by
  refine List.all_eq_true.mpr fun c hc => ?_
  have hsuffix := List.all_eq_true.mp h c hc
  simp only [isFloatSuffix, Bool.or_eq_true, beq_iff_eq] at hsuffix
  obtain ((((rfl | rfl) | rfl) | rfl) | rfl) | rfl := hsuffix <;> decide

/-- A suffix begins with no digit and no point. -/
theorem suffix_starts {t : Text} (h : t.all isFloatSuffix = true) :
    t.takeWhile Char.isDigit = [] ∧ t.dropWhile Char.isDigit = t ∧ skipZeroFraction t = some t := by
  cases t with
  | nil => exact ⟨rfl, rfl, rfl⟩
  | cons c t =>
      have hsuffix := List.all_eq_true.mp h c List.mem_cons_self
      simp only [isFloatSuffix, Bool.or_eq_true, beq_iff_eq] at hsuffix
      obtain ((((rfl | rfl) | rfl) | rfl) | rfl) | rfl := hsuffix <;> exact ⟨rfl, rfl, rfl⟩

theorem suffixes_all {t : Text} (h : suffixes t = true) : t.all isFloatSuffix = true := by
  unfold suffixes at h
  split at h
  · cases h
  · cases h
  · exact h

/-- A two, and what is behind it. -/
theorem integralPart_two {text rest t : Text} (hplus : skipOptionalPlus text = '2' :: rest)
    (htake : rest.takeWhile Char.isDigit = []) (hskip : skipZeroFraction (rest.dropWhile Char.isDigit) = some t)
    (hall : t.all isFloatSuffix = true) : isNumericLiteralUint text 2 = true := by
  have htwo : ('2' :: rest).takeWhile Char.isDigit = ['2'] := by
    rw [List.takeWhile_cons_of_pos rfl, htake]
  have hrest : ('2' :: rest).dropWhile Char.isDigit = rest.dropWhile Char.isDigit :=
    List.dropWhile_cons_of_pos rfl
  have hread : integralPart isLiteralSuffixChar text = some ['2'] := by
    unfold integralPart
    dsimp only
    rw [hplus, htwo, hrest, hskip, if_neg (List.cons_ne_nil _ _), Option.bind_some, if_pos (all_floatSuffix hall)]
  rw [isNumericLiteralUint, hread]
  rfl

/-- **What reads as two is two.** -/
theorem isTwoText_uint {text : Text} (h : isTwoText text = true) : isNumericLiteralUint text 2 = true := by
  unfold isTwoText at h
  split at h
  case h_3 => cases h
  case h_1 t hplus =>
    obtain ⟨htake, hdrop⟩ := dropZeros_digits (suffixes_all h)
    have hskip : skipZeroFraction ('.' :: t) = some (t.dropWhile (· == '0')) := by
      show (if (t.takeWhile Char.isDigit).all (fun c => c == '0') then some (t.dropWhile Char.isDigit) else none) = _
      rw [if_pos htake, hdrop]
    exact integralPart_two hplus rfl hskip (suffixes_all h)
  case h_2 t hplus =>
    obtain ⟨htake, hdrop, hskip⟩ := suffix_starts (suffixes_all h)
    exact integralPart_two hplus htake (by rw [hdrop, hskip]) (suffixes_all h)

/-- The value of a literal two. -/
theorem value_two (ρ : VectorEnv) {e : Expr} (h : isLiteralTwo isType e = true) :
    e.value (intrinsics isType ρ) = [2] := by
  obtain ⟨text, htext, htwo⟩ : ∃ text, numberOf isType e = some text ∧ isTwoText text = true := by
    unfold isLiteralTwo at h
    cases hnumber : numberOf isType e with
    | none =>
        rw [hnumber] at h
        cases h
    | some text =>
        rw [hnumber] at h
        exact ⟨text, rfl, h⟩
  obtain ⟨t, rfl, hnumber, rfl⟩ := numberOf_spec htext
  have hvalue := realLiteral_uint hnumber (n := 2) (by omega) (isTwoText_uint htwo)
  rw [value_number ρ hnumber, hvalue]
  rfl

theorem isWord_dot : IsWord kDot := ⟨rfl, rfl⟩

/-- A call of `dot` with the two vectors, in one order or the other. -/
theorem value_dotCall {v tail dot da db : Expr} (hv : Part isType v) (htail : Part isType tail)
    (hdot : Part isType dot) (hcall : callTo kDot dot = some [da, db])
    (htexts : (nodeText da = nodeText v ∧ nodeText db = nodeText tail)
      ∨ (nodeText db = nodeText v ∧ nodeText da = nodeText tail)) (ρ : VectorEnv) :
    dot.value (intrinsics isType ρ)
      = [(List.zipWith (· * ·) (v.value (intrinsics isType ρ)) (tail.value (intrinsics isType ρ))).sum] := by
  obtain ⟨hda, _⟩ := callTo_spec hdot hcall da (by simp)
  obtain ⟨hdb, _⟩ := callTo_spec hdot hcall db (by simp)
  rw [Expr.value, meaning_callTo _ isWord_dot hdot hcall, List.map_cons, List.map_singleton, call_dot]
  show [(List.zipWith (· * ·) (da.value _) (db.value _)).sum] = _
  obtain ⟨ha, hb⟩ | ⟨hb, ha⟩ := htexts
  · rw [value_of_nodeText _ hda hv ha, value_of_nodeText _ hdb htail hb]
  · rw [value_of_nodeText _ hda htail ha, value_of_nodeText _ hdb hv hb]
    rw [List.zipWith_comm_of_comm mul_comm]

/-- The factor in front of the normal: twice the product of the two vectors. -/
theorem tryExtract_spec {v inner tail : Expr} (hv : Part isType v) (hinner : Part isType inner)
    (htail : Part isType tail) {n : Expr} (h : tryExtract isType v inner tail = some n) :
    n = tail ∧ ∀ ρ, inner.value (intrinsics isType ρ)
      = [2 * (List.zipWith (· * ·) (v.value (intrinsics isType ρ)) (tail.value (intrinsics isType ρ))).sum] := by
  unfold tryExtract at h
  split at h
  case h_2 => cases h
  case h_1 il op ir =>
    split at h
    case isTrue => cases h
    case isFalse hop =>
      rw [not_not] at hop
      obtain ⟨dot, hdot, h⟩ := Option.bind_eq_some_iff.mp h
      split at h
      case h_2 => cases h
      case h_1 da db hcall =>
        split at h
        case isFalse => cases h
        case isTrue htexts =>
          cases h
          refine ⟨rfl, fun ρ => ?_⟩
          have hil : Part isType il := Part.fill (f := .left op ir) hinner
          have hir : Part isType ir := Part.fill (f := .right il op) hinner
          have hpart : Part isType dot := by
            split at hdot
            · cases hdot
              exact hir
            · split at hdot
              · cases hdot
                exact hil
              · cases hdot
          have hvalue := value_dotCall hv htail hpart hcall htexts ρ
          rw [value_binary, hop]
          split at hdot
          case isTrue htwo =>
            cases hdot
            rw [value_two ρ htwo, hvalue]
            rfl
          case isFalse =>
            split at hdot
            case isTrue htwo =>
              cases hdot
              rw [value_two ρ htwo, hvalue]
              show [_ * (2 : ℝ)] = _
              rw [mul_comm]
            case isFalse => cases hdot

/-- The right-hand side: the normal, times twice the product. -/
theorem tryMatchReflectRhs_spec {rhs v : Expr} (hv : Part isType v) (hrhs : Part isType rhs) {n : Expr}
    (h : tryMatchReflectRhs isType rhs v = some n) :
    NamedCall.Operand isType n ∧ ∀ ρ, rhs.value (intrinsics isType ρ)
      = (n.value (intrinsics isType ρ)).map
        (2 * (List.zipWith (· * ·) (v.value (intrinsics isType ρ)) (n.value (intrinsics isType ρ))).sum * ·) := by
  unfold tryMatchReflectRhs at h
  split at h
  case h_2 => cases h
  case h_1 left op right =>
    split at h
    case isTrue => cases h
    case isFalse hop =>
      rw [not_not] at hop
      have hleft : Part isType left := Part.fill (f := .left op right) hrhs
      have hright : Part isType right := Part.fill (f := .right left op) hrhs
      obtain ⟨p, hp, _, hla, _, hlb⟩ := hrhs.1
      have hprec : p = leftAssoc 12 := by
        rw [kind, hop] at hp
        exact (Option.some.inj hp).symm
      rw [hprec] at hla hlb
      obtain h | ⟨_, h⟩ := Option.or_eq_some_iff.mp h
      · obtain ⟨rfl, hvalue⟩ := tryExtract_spec hv hleft hright h
        refine ⟨⟨hright, Nat.le_trans (by decide) hlb⟩, fun ρ => ?_⟩
        rw [value_binary, hop, hvalue ρ]
        rfl
      · obtain ⟨rfl, hvalue⟩ := tryExtract_spec hv hright hleft h
        refine ⟨⟨hleft, Nat.le_trans (by decide) hla⟩, fun ρ => ?_⟩
        rw [value_binary, hop, hvalue ρ]
        show componentwise (· * ·) _ [_] = _
        rw [componentwise_right]
        exact List.map_congr_left fun a _ => mul_comm _ _

/-- **What is reported is a reflection.** -/
theorem find_sound {node : Expr} (h : Part isType node) {r : NamedCall} (hf : find isType node = some r) :
    Sound isType node r := by
  unfold find at hf
  split at hf
  case h_2 => cases hf
  case h_1 lhs op rhs =>
    split at hf
    case isTrue => cases hf
    case isFalse hop =>
      rw [not_not] at hop
      obtain ⟨n, hmatch, rfl⟩ := Option.map_eq_some_iff.mp hf
      have hleft : Part isType lhs := Part.fill (f := .left op rhs) h
      obtain ⟨p, hp, _, hla, _, _⟩ := h.1
      have hprec : p = leftAssoc 11 := by
        rw [kind, hop] at hp
        exact (Option.some.inj hp).symm
      rw [hprec] at hla
      obtain ⟨hn, hvalue⟩ := tryMatchReflectRhs_spec hleft (Part.fill (f := .right lhs op) h) hmatch
      have hword : ({ fn := kReflect, first := lhs, second := some n } : NamedCall).WellFormed isType := by
        refine ⟨⟨rfl, rfl⟩, ⟨hleft, Nat.le_trans (by decide) hla⟩, ?_⟩
        rintro e ⟨⟩
        exact hn
      refine ⟨hword, fun ρ lead => ?_⟩
      have hcomma : op.body ≠ [','] := by
        rw [hop]
        decide
      rw [NamedCall.meaning_node hword, meaning_binary _ hcomma, hop, hvalue ρ]
      show _ = Meaning.ofValue ((intrinsics isType ρ).call (.name kReflect)
        [lhs.value (intrinsics isType ρ), n.value (intrinsics isType ρ)])
      rw [call_reflect]
      rfl

/-! ## §3. All suggestions. -/

/-- **A rule that stops finds nodes that are apart**, from the left to the
right. -/
theorem visit_apart {α : Type} {f : Ctx → Expr → Option α} {span : α → ByteSpan}
    (hspan : ∀ c n a, f c n = some a → span a = byteRange c n) {e : Expr} :
    ∀ {c : Ctx}, (visit f true c e).Pairwise fun a b => (span a).hi ≤ (span b).lo := by
  -- what is found is inside, and to the left of what is found in a node to the right
  have hcross : ∀ {g h : Frame} {c : Ctx} {x y : Expr}, Beside (fun _ => false) g x h y →
      ∀ a ∈ visit f true (g :: c) x, ∀ b ∈ visit f true (h :: c) y, (span a).hi ≤ (span b).lo := by
    intro g h c x y hbeside a ha b hb
    obtain ⟨p, hp, hfp⟩ := mem_visit ha
    obtain ⟨q, hq, hfq⟩ := mem_visit hb
    have hleft := (places_within hp).2
    have hright := (places_within hq).1
    rw [← hspan _ _ _ hfp] at hleft
    rw [← hspan _ _ _ hfq] at hright
    exact Nat.le_trans hleft (Nat.le_trans (hbeside.byteRange_le c) hright)
  have hhere : ∀ {c : Ctx} {n : Expr} {below : List α},
      below.Pairwise (fun a b => (span a).hi ≤ (span b).lo) →
      ((f c n).toList ++ if true && (f c n).isSome then [] else below).Pairwise
        fun a b => (span a).hi ≤ (span b).lo := by
    intro c n below h
    cases f c n with
    | none => exact h
    | some a => exact List.pairwise_singleton ..
  induction e with
  | atom t =>
      intro c
      rw [visit]
      exact hhere .nil
  | paren l x r ih =>
      intro c
      rw [visit]
      exact hhere ih
  | construct type l args r ih =>
      intro c
      rw [visit]
      exact hhere ih
  | unary p x ih =>
      intro c
      rw [visit]
      exact hhere ih
  | binary x op y ihx ihy =>
      intro c
      rw [visit]
      exact hhere (List.pairwise_append.mpr ⟨ihx, ihy, hcross (beside_binary x op y)⟩)
  | cond t q a k b iht iha ihb =>
      intro c
      rw [visit]
      refine hhere (List.pairwise_append.mpr ⟨iht, ?_, ?_⟩)
      · exact List.pairwise_append.mpr ⟨iha, ihb, hcross (beside_consequence_alternative t q a k b)⟩
      · intro u hu v hv
        obtain hv | hv := List.mem_append.mp hv
        · exact hcross (beside_test_consequence t q a k b) u hu v hv
        · exact hcross (beside_test_alternative t q a k b) u hu v hv
  | suffix x s ih =>
      intro c
      rw [visit]
      exact hhere ih
  | apply x l i r ihx ihi =>
      intro c
      rw [visit]
      exact hhere (List.pairwise_append.mpr ⟨ihx, ihi, hcross (beside_callee_argument x l i r)⟩)

/-- All fixes of the diagnostics, as the rewriter takes them. -/
def suggestions (ds : List Diagnostic) : List (Rewriter.PrioritisedFix Char) :=
  ds.flatMap fun d => d.fixes.map fun f => ⟨⟨d.severity, d.code⟩, f⟩

/-- A reported node, and its safe suggestion. -/
theorem onTree_spec {s : Text} {root : Expr} (hs : parseText isType s = some root) (source : SourceId)
    {d : Diagnostic} (hd : d ∈ onTree isType source root) :
    ∃ f e, d.fixes = [f] ∧ f.edits = [e] ∧ e.span.bytes = d.primarySpan.bytes
      ∧ SafeFix isType (intrinsics isType) (fun _ _ => True) root f := by
  obtain ⟨⟨c, node⟩, hplace, hfound⟩ := mem_visit hd
  obtain ⟨r, hfind, rfl⟩ := Option.map_eq_some_iff.mp hfound
  have hplug : c.plug node = root := plug_of_mem_places hplace
  have hsound := find_sound (part_of_parse (hplug ▸ hs)).2.1 hfind
  have hsafe := safeFix_single (P := fun _ _ => True) (hsound.replacement hs hplug) trivial source
    (description (nodeText r.first) (r.second.elim [] nodeText)) false
  refine ⟨_, _, rfl, rfl, rfl, ?_⟩
  rw [← @NamedCall.nodeText_node isType node.lead]
  exact hsafe

/-- **All suggestions of `manual-reflect` at once**: none is dropped, and the text
that comes out reads as a tree of the same value. -/
theorem manualReflect_all {s : Text} {root : Expr} (hs : parseText isType s = some root) (source : SourceId)
    (sort : Rewriter.DescendingSort Char) :
    (Rewriter.apply sort s (suggestions (onTree isType source root))).2 = []
      ∧ ∃ root', parseText isType (Rewriter.apply sort s (suggestions (onTree isType source root))).1
          = some root'
        ∧ ∀ ρ, root'.value (intrinsics isType ρ) = root.value (intrinsics isType ρ) := by
  have hall := fun d (hd : d ∈ onTree isType source root) => onTree_spec hs source hd
  constructor
  · have hapart : (onTree isType source root).Pairwise fun a b =>
        a.primarySpan.bytes.hi ≤ b.primarySpan.bytes.lo := by
      refine @visit_apart _ _ (fun d : Diagnostic => d.primarySpan.bytes) ?_ _ _
      intro c n d hd
      obtain ⟨r, _, rfl⟩ := Option.map_eq_some_iff.mp hd
      rfl
    refine apply_noConflict sort s ?_
    have hone : ∀ d ∈ onTree isType source root,
        (d.fixes.map fun f => (⟨⟨d.severity, d.code⟩, f⟩ : Rewriter.PrioritisedFix Char)).Pairwise
          fun a b => ¬ Rewriter.FixesOverlap a.fix b.fix := by
      intro d hd
      obtain ⟨f, e, hfixes, _⟩ := hall d hd
      rw [hfixes]
      exact List.pairwise_singleton ..
    refine List.pairwise_flatMap.mpr ⟨hone, hapart.imp_of_mem ?_⟩
    intro a b ha hb hab x hx y hy
    obtain ⟨f, e, hfixes, hedits, hspan, _⟩ := hall a ha
    obtain ⟨f', e', hfixes', hedits', hspan', _⟩ := hall b hb
    rw [hfixes] at hx
    rw [hfixes'] at hy
    cases List.mem_singleton.mp hx
    cases List.mem_singleton.mp hy
    rintro ⟨e₁, he₁, e₂, he₂, hov⟩
    rw [hedits] at he₁
    rw [hedits'] at he₂
    cases List.mem_singleton.mp he₁
    cases List.mem_singleton.mp he₂
    rw [Rewriter.overlaps_iff, hspan, hspan'] at hov
    omega
  · refine apply_keepsValue (P := fun _ _ => True) hs ?_ sort
    intro pf hpf
    obtain ⟨d, hd, hpf⟩ := List.mem_flatMap.mp hpf
    obtain ⟨f, hf, rfl⟩ := List.mem_map.mp hpf
    obtain ⟨f', e, hfixes, _, _, hsafe⟩ := hall d hd
    rw [hfixes] at hf
    cases List.mem_singleton.mp hf
    exact hsafe

/-- `v - 2.0 * dot(n, v) * n`. -/
def formula : Expr :=
  .binary (.atom ⟨[], ['v']⟩) ⟨[' '], ['-']⟩
    (.binary
      (.binary (.atom ⟨[' '], "2.0".toList⟩) ⟨[' '], ['*']⟩
        (.apply (.atom ⟨[' '], kDot⟩) ⟨[], ['(']⟩
          (.binary (.atom ⟨[], ['n']⟩) ⟨[], [',']⟩ (.atom ⟨[' '], ['v']⟩)) ⟨[], [')']⟩))
      ⟨[' '], ['*']⟩ (.atom ⟨[' '], ['n']⟩))

theorem formula_reads : parseText (fun _ => false) "v - 2.0 * dot(n, v) * n".toList = some formula := by
  decide +kernel

theorem manualReflect_all_formula :
    (Rewriter.apply Rewriter.stableSort "v - 2.0 * dot(n, v) * n".toList
        (suggestions (onTree (fun _ => false) ⟨1⟩ formula))).2 = []
      ∧ ∃ root', parseText (fun _ => false) (Rewriter.apply Rewriter.stableSort "v - 2.0 * dot(n, v) * n".toList
            (suggestions (onTree (fun _ => false) ⟨1⟩ formula))).1 = some root'
        ∧ ∀ ρ, root'.value (intrinsics (fun _ => false) ρ) = formula.value (intrinsics (fun _ => false) ρ) :=
  manualReflect_all formula_reads ⟨1⟩ Rewriter.stableSort

example : (Rewriter.apply Rewriter.stableSort "v - 2.0 * dot(n, v) * n".toList
    (suggestions (onTree (fun _ => false) ⟨1⟩ formula))).1 = "reflect(v, n)".toList := by decide +kernel

end ManualReflect

end ShaderClippy.Rules
