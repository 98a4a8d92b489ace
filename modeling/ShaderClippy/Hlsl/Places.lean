/-
  ShaderClippy.Hlsl.Places

  **TWO PLACES OF ONE TREE.**

  A node is given by its context. Of two nodes of one tree, one is inside the
  other or they are apart; of two that are apart, one ends before the other
  begins. The left one of these does not notice when the right one is replaced:
  its bytes stay where they are, its place asks for the same, and what is behind
  it begins the same (`stays_left`).
-/
import ShaderClippy.Hlsl.Reparse
import Mathlib.Data.List.Induction

namespace ShaderClippy.Hlsl

open Munch (LexOK Seam render)

variable {isType : Text → Bool}

/-! ## §1. The nodes of a tree. -/

/-- The nodes of a tree, each with what is around it: a node, then its children. -/
def places (c : Ctx) : Expr → List (Ctx × Expr)
  | .atom t => [(c, .atom t)]
  | .paren l e r => (c, .paren l e r) :: places (.paren l r :: c) e
  | .construct type l args r =>
      (c, .construct type l args r) :: places (.construct type l r :: c) args
  | .unary p e => (c, .unary p e) :: places (.unary p :: c) e
  | .binary x op y =>
      (c, .binary x op y) :: (places (.left op y :: c) x ++ places (.right x op :: c) y)
  | .cond t q a k b =>
      (c, .cond t q a k b) :: (places (.test q a k b :: c) t
        ++ (places (.consequence t q k b :: c) a ++ places (.alternative t q a k :: c) b))
  | .suffix e s => (c, .suffix e s) :: places (.suffix s :: c) e
  | .apply f l i r =>
      (c, .apply f l i r) :: (places (.callee l i r :: c) f ++ places (.argument f l r :: c) i)

/-- **What holds of a node, and of what it is an operand of, holds of the tree.** -/
theorem places_induction {d : Ctx} {n : Expr} {motive : Ctx → Expr → Prop} (here : motive d n)
    (above : ∀ {f : Frame} {c : Ctx} {x : Expr}, motive (f :: c) x → motive c (f.fill x)) {e : Expr} :
    ∀ {c : Ctx}, (d, n) ∈ places c e → motive c e := by
  induction e with
  | atom t =>
      intro c h
      cases List.mem_singleton.mp h
      exact here
  | paren l e r ih =>
      intro c h
      obtain h | h := List.mem_cons.mp h
      · cases h
        exact here
      · exact above (f := .paren l r) (ih h)
  | construct type l args r ih =>
      intro c h
      obtain h | h := List.mem_cons.mp h
      · cases h
        exact here
      · exact above (f := .construct type l r) (ih h)
  | unary p e ih =>
      intro c h
      obtain h | h := List.mem_cons.mp h
      · cases h
        exact here
      · exact above (f := .unary p) (ih h)
  | binary x op y ihx ihy =>
      intro c h
      obtain h | h := List.mem_cons.mp h
      · cases h
        exact here
      · obtain h | h := List.mem_append.mp h
        · exact above (f := .left op y) (ihx h)
        · exact above (f := .right x op) (ihy h)
  | cond t q a k b iht iha ihb =>
      intro c h
      obtain h | h := List.mem_cons.mp h
      · cases h
        exact here
      · obtain h | h := List.mem_append.mp h
        · exact above (f := .test q a k b) (iht h)
        · obtain h | h := List.mem_append.mp h
          · exact above (f := .consequence t q k b) (iha h)
          · exact above (f := .alternative t q a k) (ihb h)
  | suffix e s ih =>
      intro c h
      obtain h | h := List.mem_cons.mp h
      · cases h
        exact here
      · exact above (f := .suffix s) (ih h)
  | apply e l i r ihe ihi =>
      intro c h
      obtain h | h := List.mem_cons.mp h
      · cases h
        exact here
      · obtain h | h := List.mem_append.mp h
        · exact above (f := .callee l i r) (ihe h)
        · exact above (f := .argument e l r) (ihi h)

/-- They are nodes of the tree. -/
theorem plug_of_mem_places {d : Ctx} {n : Expr} {e : Expr} {c : Ctx} (h : (d, n) ∈ places c e) :
    d.plug n = c.plug e := by
  refine places_induction (motive := fun c e => d.plug n = c.plug e) rfl ?_ h
  intro f c x hplug
  exact hplug

/-! ## §2. Contexts, from the root on. -/

namespace Ctx

theorem plug_append (c d : Ctx) (e : Expr) : plug (c ++ d) e = plug d (plug c e) := by
  induction c generalizing e with
  | nil => rfl
  | cons f c ih => exact ih (f.fill e)

theorem before_append (c d : Ctx) : before (c ++ d) = before d ++ before c := by
  induction c with
  | nil => exact (List.append_nil _).symm
  | cons f c ih => rw [List.cons_append, before, ih, before, List.append_assoc]

theorem after_append (c d : Ctx) : after (c ++ d) = after c ++ after d := by
  induction c with
  | nil => rfl
  | cons f c ih => rw [List.cons_append, after, ih, after, List.append_assoc]

end Ctx

/-! ## §3. The bytes of a node. -/

theorem nodeText_ne_nil {e : Expr} (h : LexOK rules e.toks) : nodeText e ≠ [] := by
  rw [nodeText]
  cases htoks : e.toks with
  | nil => exact absurd htoks e.toks_ne_nil
  | cons t ts =>
      rw [htoks] at h
      intro hnil
      have hbody : t.body = [] := (List.append_eq_nil_iff.mp (List.append_eq_nil_iff.mp hnil).1).2
      exact h.2.1.1 hbody

/-- The tokens of a node are tokens. -/
theorem lexOK_part {c : Ctx} {e : Expr} (h : LexOK rules (c.plug e).toks) : LexOK rules e.toks :=
  (lexOK_plug.mp h).2.1

/-- A node covers at least a byte. -/
theorem byteRange_lt {c : Ctx} {e : Expr} (h : LexOK rules (c.plug e).toks) :
    (byteRange c e).lo < (byteRange c e).hi :=
  Nat.lt_add_of_pos_right (List.length_pos_iff.mpr (nodeText_ne_nil (lexOK_part h)))

/-- The bytes of a node, counted from the first token in front of it. -/
theorem byteRange_hi (c : Ctx) (e : Expr) :
    (byteRange c e).hi = (render (c.before ++ e.toks)).length := by
  rw [Munch.render_append, List.length_append, render_toks, List.length_append, ← Nat.add_assoc]
  rfl

/-- One frame further out moves a node by the text in front of the hole. -/
theorem byteRange_concat (c : Ctx) (f : Frame) (e : Expr) :
    byteRange (c ++ [f]) e = ⟨(render f.before).length + (byteRange c e).lo,
      (render f.before).length + (byteRange c e).hi⟩ := by
  have hbefore : Ctx.before (c ++ [f]) = f.before ++ c.before := by
    rw [Ctx.before_append]
    rfl
  unfold byteRange
  rw [hbefore, Munch.render_append, List.length_append]
  simp only [Nat.add_assoc]

/-- A node ends in its tree. -/
theorem byteRange_hi_le (c : Ctx) (e : Expr) : (byteRange c e).hi ≤ (render (c.plug e).toks).length := by
  rw [byteRange_hi, Ctx.toks_plug, Munch.render_append (c.before ++ e.toks), List.length_append]
  exact Nat.le_add_right _ _

/-- A node begins in its tree. -/
theorem lead_le_byteRange (c : Ctx) (e : Expr) : (c.plug e).lead.length ≤ (byteRange c e).lo := by
  have hlead : ∀ ts us : List Token, ts ≠ [] →
      ((ts ++ us).head?.elim [] fun t => t.lead) = ts.head?.elim [] fun t => t.lead := by
    intro ts us h
    cases ts with
    | nil => exact absurd rfl h
    | cons t ts => rfl
  unfold byteRange Expr.lead
  rw [Ctx.toks_plug, List.append_assoc]
  cases hbefore : c.before with
  | nil =>
      rw [List.nil_append, hlead _ _ e.toks_ne_nil, Munch.render_nil, List.length_nil, Nat.zero_add]
  | cons t ts =>
      show t.lead.length ≤ (t.lead ++ t.body ++ render ts).length + _
      rw [List.length_append, List.length_append]
      omega

/-! ## §4. Two holes of one node. -/

/-- The hole of `f` is to the left of that of `g`, in one node: another operand in
the hole of `g` leaves what is in front of the hole of `f` and what is next to it. -/
structure Beside (isType : Text → Bool) (f : Frame) (t : Expr) (g : Frame) (u : Expr) : Prop where
  refill : ∀ u', ∃ f' : Frame, f'.fill t = g.fill u' ∧ f'.before = f.before
    ∧ f'.need isType = f.need isType ∧ ∃ sep ts ts', f.after = sep :: ts ∧ f'.after = sep :: ts'
  prior : ∃ ts, g.before = f.before ++ t.toks ++ ts

theorem beside_binary (x : Expr) (op : Token) (y : Expr) :
    Beside isType (.left op y) x (.right x op) y :=
  ⟨fun u' => ⟨.left op u', rfl, rfl, rfl, op, _, _, rfl, rfl⟩, ⟨[op], rfl⟩⟩

theorem beside_test_consequence (c : Expr) (q : Token) (a : Expr) (k : Token) (b : Expr) :
    Beside isType (.test q a k b) c (.consequence c q k b) a :=
  ⟨fun u' => ⟨.test q u' k b, rfl, rfl, rfl, q, _, _, rfl, rfl⟩, ⟨[q], rfl⟩⟩

theorem beside_test_alternative (c : Expr) (q : Token) (a : Expr) (k : Token) (b : Expr) :
    Beside isType (.test q a k b) c (.alternative c q a k) b :=
  ⟨fun u' => ⟨.test q a k u', rfl, rfl, rfl, q, _, _, rfl, rfl⟩, ⟨q :: (a.toks ++ [k]), rfl⟩⟩

theorem beside_consequence_alternative (c : Expr) (q : Token) (a : Expr) (k : Token) (b : Expr) :
    Beside isType (.consequence c q k b) a (.alternative c q a k) b :=
  ⟨fun u' => ⟨.consequence c q k u', rfl, rfl, rfl, k, _, _, rfl, rfl⟩,
    ⟨[k], by simp only [Frame.before, List.append_assoc, List.cons_append, List.nil_append]⟩⟩

theorem beside_callee_argument (e : Expr) (l : Token) (i : Expr) (r : Token) :
    Beside isType (.callee l i r) e (.argument e l r) i :=
  ⟨fun u' => ⟨.callee l u' r, rfl, rfl, rfl, l, _, _, rfl, rfl⟩, ⟨[l], rfl⟩⟩

/-- **Two holes of one node** are the same, or one is to the left of the other. -/
theorem fill_cases {f g : Frame} {t u : Expr} (h : f.fill t = g.fill u) :
    (f = g ∧ t = u) ∨ Beside isType f t g u ∨ Beside isType g u f t := by
  cases f <;> cases g <;> cases h
  case left.right => exact .inr (.inl (beside_binary ..))
  case right.left => exact .inr (.inr (beside_binary ..))
  case test.consequence => exact .inr (.inl (beside_test_consequence ..))
  case consequence.test => exact .inr (.inr (beside_test_consequence ..))
  case test.alternative => exact .inr (.inl (beside_test_alternative ..))
  case alternative.test => exact .inr (.inr (beside_test_alternative ..))
  case consequence.alternative => exact .inr (.inl (beside_consequence_alternative ..))
  case alternative.consequence => exact .inr (.inr (beside_consequence_alternative ..))
  case callee.argument => exact .inr (.inl (beside_callee_argument ..))
  case argument.callee => exact .inr (.inr (beside_callee_argument ..))
  all_goals exact .inl ⟨rfl, rfl⟩

/-! ## §5. Two nodes of one tree. -/

/-- The place `c'` of a node is what `c` was, as far as the node can tell. -/
structure SamePlace (isType : Text → Bool) (c c' : Ctx) : Prop where
  before : c'.before = c.before
  need : c'.need isType = c.need isType
  next : (render c'.after).head? = (render c.after).head?

theorem SamePlace.refl (c : Ctx) : SamePlace isType c c := ⟨rfl, rfl, rfl⟩

theorem SamePlace.byteRange_eq {c c' : Ctx} (h : SamePlace isType c c') (e : Expr) :
    byteRange c' e = byteRange c e := by
  unfold byteRange
  rw [h.before]

/-- What runs into its place still does. -/
theorem SamePlace.seam_after {c c' : Ctx} (h : SamePlace isType c c') (ts : List Token) :
    Seam rules ts c'.after ↔ Seam rules ts c.after := by
  unfold Seam Munch.Stops
  rw [h.next]

theorem SamePlace.concat {c c' : Ctx} {f f' : Frame} (h : SamePlace isType c c')
    (hbefore : f'.before = f.before) (hneed : f'.need isType = f.need isType)
    (hnext : (render f'.after).head? = (render f.after).head?)
    (hempty : c = [] ↔ c' = []) : SamePlace isType (c ++ [f]) (c' ++ [f']) := by
  have hb : ∀ (d : Ctx) (g : Frame), Ctx.before (d ++ [g]) = g.before ++ d.before := by
    intro d g
    rw [Ctx.before_append]
    rfl
  have ha : ∀ (d : Ctx) (g : Frame), Ctx.after (d ++ [g]) = d.after ++ g.after := by
    intro d g
    rw [Ctx.after_append, Ctx.after, Ctx.after, List.append_nil]
  refine ⟨by rw [hb, hb, hbefore, h.before], ?_, ?_⟩
  · cases c with
    | nil =>
        rw [hempty.mp rfl]
        exact hneed
    | cons g d =>
        cases c' with
        | nil => exact absurd (hempty.mpr rfl) (List.cons_ne_nil _ _)
        | cons g' d' => exact h.need
  · rw [ha, ha, Munch.render_append, Munch.render_append, List.head?_append, List.head?_append, h.next, hnext]

/-- **A node does not notice what is put in the place of one to its right.** -/
theorem stays_left {c d : Ctx} {n m : Expr} (h : c.plug n = d.plug m)
    (hok : LexOK rules (c.plug n).toks) (hapart : (byteRange c n).hi ≤ (byteRange d m).lo) (m' : Expr) :
    ∃ c' : Ctx, c'.plug n = d.plug m' ∧ SamePlace isType c c' ∧ (c = [] ↔ c' = []) := by
  induction c using List.reverseRecOn generalizing d with
  | nil =>
      -- the other node begins behind the end of the tree
      have hn : n = d.plug m := h
      have hend : (byteRange [] n).hi = (render n.toks).length := byteRange_hi [] n
      have hle := byteRange_hi_le d m
      have hlt := byteRange_lt (c := d) (e := m) (h ▸ hok)
      rw [← hn] at hle
      omega
  | append_singleton c f ih =>
      induction d using List.reverseRecOn with
      | nil =>
          -- this node begins in front of the tree
          have hm : Ctx.plug (c ++ [f]) n = m := h
          have hlo : (byteRange [] m).lo = m.lead.length := Nat.zero_add _
          have hle := lead_le_byteRange (c ++ [f]) n
          have hlt := byteRange_lt hok
          rw [hm] at hle
          omega
      | append_singleton d g _ =>
          rw [Ctx.plug_append, Ctx.plug_append] at h
          have hfill : f.fill (Ctx.plug c n) = g.fill (Ctx.plug d m) := h
          rw [Ctx.plug_append] at hok
          have hokf : LexOK rules (f.fill (Ctx.plug c n)).toks := hok
          rw [byteRange_concat, byteRange_concat] at hapart
          dsimp only at hapart
          obtain ⟨rfl, hsame⟩ | hbeside | hbeside := @fill_cases isType _ _ _ _ hfill
          · have hpart : LexOK rules (Ctx.plug c n).toks := lexOK_part (c := [f]) hokf
            obtain ⟨c', hplug, hplace, hempty⟩ := ih hsame hpart (by omega)
            refine ⟨c' ++ [f], ?_, hplace.concat rfl rfl rfl hempty, by simp⟩
            rw [Ctx.plug_append, hplug, Ctx.plug_append]
          · obtain ⟨f', hfill', hbefore, hneed, sep, ts, ts', hts, hts'⟩ := hbeside.refill (Ctx.plug d m')
            have hsep : sep.text ≠ [] := by
              have hafter := (lexOK_plug (c := [f]).mp hokf).2.2.1
              rw [Ctx.after, hts] at hafter
              intro hnil
              exact hafter.2.1.1 (List.append_eq_nil_iff.mp hnil).2
            have hnext : (render f'.after).head? = (render f.after).head? := by
              rw [hts, hts', Munch.render_cons, Munch.render_cons, List.head?_append_of_ne_nil _ hsep,
                List.head?_append_of_ne_nil _ hsep]
            refine ⟨c ++ [f'], ?_, (SamePlace.refl c).concat hbefore hneed hnext Iff.rfl, by simp⟩
            rw [Ctx.plug_append, Ctx.plug_append]
            exact hfill'
          · -- this node is to the right of the other one
            obtain ⟨ts, hprior⟩ := hbeside.prior
            have hm := byteRange_hi_le d m
            have hlen : (render g.before).length + (render (Ctx.plug d m).toks).length
                ≤ (render f.before).length := by
              rw [hprior, Munch.render_append, Munch.render_append, List.length_append, List.length_append]
              exact Nat.le_add_right _ _
            have hokg : LexOK rules (g.fill (Ctx.plug d m)).toks := by
              rw [← hfill]
              exact hokf
            have hltm := byteRange_lt (c := d) (e := m) (lexOK_part (c := [g]) hokg)
            have hltn := byteRange_lt (c := c) (e := n) (lexOK_part (c := [f]) hokf)
            omega

/-! ## §6. The bytes below a node. -/

/-- An operand is inside its node. -/
theorem byteRange_cons (f : Frame) (c : Ctx) (e : Expr) :
    (byteRange c (f.fill e)).lo ≤ (byteRange (f :: c) e).lo
      ∧ (byteRange (f :: c) e).hi ≤ (byteRange c (f.fill e)).hi := by
  have hlead : (f.fill e).lead.length ≤ (render f.before).length + e.lead.length := by
    have h := lead_le_byteRange [f] e
    exact h
  constructor
  · show (render c.before).length + (f.fill e).lead.length
      ≤ (render (c.before ++ f.before)).length + e.lead.length
    rw [Munch.render_append, List.length_append]
    omega
  · rw [byteRange_hi, byteRange_hi, Frame.toks_fill]
    show (render (c.before ++ f.before ++ e.toks)).length ≤ _
    rw [← List.append_assoc, ← List.append_assoc, Munch.render_append (_ ++ e.toks), List.length_append]
    exact Nat.le_add_right _ _

/-- What is to the left of an operand ends in front of it. -/
theorem Beside.byteRange_le {f g : Frame} {t u : Expr} (h : Beside isType f t g u) (c : Ctx) :
    (byteRange (f :: c) t).hi ≤ (byteRange (g :: c) u).lo := by
  obtain ⟨ts, hprior⟩ := h.prior
  rw [byteRange_hi]
  show (render (c.before ++ f.before ++ t.toks)).length ≤ (render (c.before ++ g.before)).length + u.lead.length
  have hlist : c.before ++ g.before = c.before ++ f.before ++ t.toks ++ ts := by
    rw [hprior]
    simp only [List.append_assoc]
  rw [hlist, Munch.render_append (c.before ++ f.before ++ t.toks), List.length_append]
  omega

/-- The nodes below a node are inside it. -/
theorem places_within {d : Ctx} {n : Expr} {e : Expr} {c : Ctx} (h : (d, n) ∈ places c e) :
    (byteRange c e).lo ≤ (byteRange d n).lo ∧ (byteRange d n).hi ≤ (byteRange c e).hi := by
  refine places_induction (motive := fun c e =>
    (byteRange c e).lo ≤ (byteRange d n).lo ∧ (byteRange d n).hi ≤ (byteRange c e).hi)
    ⟨Nat.le_refl _, Nat.le_refl _⟩ ?_ h
  intro f c x hbelow
  have hcons := byteRange_cons f c x
  exact ⟨Nat.le_trans hcons.1 hbelow.1, Nat.le_trans hbelow.2 hcons.2⟩

end ShaderClippy.Hlsl
