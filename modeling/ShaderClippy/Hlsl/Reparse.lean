/-
  ShaderClippy.Hlsl.Reparse

  **REPLACING THE TEXT OF A NODE.**

  A fix puts a text in the place of a node, and the shader is read again. The
  node is then replaced by the node the text stands for, and nothing else
  changes, exactly if that node binds as tightly as its place asks and no token
  at either seam runs into the next (`reparse_iff`).
-/
import ShaderClippy.Hlsl.RoundTrip
import ShaderClippy.Lib.Splice

namespace ShaderClippy.Hlsl

open Munch (LexOK Seam render)

variable {isType : Text → Bool}

/-! ## §1. Reading a text. -/

/-- Read an expression. -/
def parseText (isType : Text → Bool) (s : Text) : Option Expr :=
  (Munch.lex rules s).bind fun r => parse isType r.1

/-- **Reading is printing backwards.** -/
theorem parseText_iff {s : Text} {e : Expr} :
    parseText isType s = some e ↔
      e.WellFormed isType ∧ LexOK rules e.toks
        ∧ ∃ trail, (∀ c ∈ trail, isSpace c = true) ∧ s = render e.toks ++ trail := by
  rw [parseText, Option.bind_eq_some_iff]
  constructor
  · rintro ⟨r, hlex, hparse⟩
    have ⟨hok, htrail, hs⟩ := Munch.lex_iff.mp (show Munch.lex rules s = some (r.1, r.2) from hlex)
    have ⟨hwf, htoks⟩ := parse_iff.mp hparse
    rw [← htoks] at hok hs
    exact ⟨hwf, hok, r.2, htrail, hs⟩
  · rintro ⟨hwf, hok, trail, htrail, hs⟩
    exact ⟨(e.toks, trail), Munch.lex_iff.mpr ⟨hok, htrail, hs⟩, parse_toks hwf⟩

/-! ## §2. The text of a node. -/

/-- Other blanks in front of the first token. -/
def setLead (lead : Text) : List Token → List Token
  | [] => []
  | t :: ts => ⟨lead, t.body⟩ :: ts

/-- Other blanks in front of the node. -/
def Expr.withLead (lead : Text) : Expr → Expr
  | .atom t => .atom ⟨lead, t.body⟩
  | .paren l e r => .paren ⟨lead, l.body⟩ e r
  | .construct type l args r => .construct ⟨lead, type.body⟩ l args r
  | .unary (.op t) e => .unary (.op ⟨lead, t.body⟩) e
  | .unary (.cast l type r) e => .unary (.cast ⟨lead, l.body⟩ type r) e
  | .binary x op y => .binary (x.withLead lead) op y
  | .cond c q a k b => .cond (c.withLead lead) q a k b
  | .suffix e s => .suffix (e.withLead lead) s
  | .apply e l i r => .apply (e.withLead lead) l i r

theorem setLead_append (lead : Text) {ts us : List Token} (h : ts ≠ []) :
    setLead lead (ts ++ us) = setLead lead ts ++ us := by
  cases ts with
  | nil => exact absurd rfl h
  | cons t ts => rfl

@[simp] theorem toks_withLead (lead : Text) (e : Expr) :
    (e.withLead lead).toks = setLead lead e.toks := by
  induction e with
  | atom t => rfl
  | paren l e r => rfl
  | construct type l args r => rfl
  | unary p e => cases p <;> rfl
  | binary x op y ih _ => rw [Expr.withLead, Expr.toks, Expr.toks, ih, setLead_append _ x.toks_ne_nil]
  | cond c q a k b ih _ _ =>
      rw [Expr.withLead, Expr.toks, Expr.toks, ih, setLead_append _ c.toks_ne_nil]
  | suffix e s ih => rw [Expr.withLead, Expr.toks, Expr.toks, ih, setLead_append _ e.toks_ne_nil]
  | apply e l i r ih _ =>
      rw [Expr.withLead, Expr.toks, Expr.toks, ih, setLead_append _ e.toks_ne_nil]

@[simp] theorem level_withLead (lead : Text) (e : Expr) :
    (e.withLead lead).level isType = e.level isType := by
  cases e with
  | unary p e => cases p <;> rfl
  | _ => rfl

@[simp] theorem wellFormed_withLead (lead : Text) (e : Expr) :
    (e.withLead lead).WellFormed isType ↔ e.WellFormed isType := by
  induction e with
  | unary p e => cases p <;> rfl
  | binary x op y ih _ => simp only [Expr.withLead, Expr.WellFormed, ih, level_withLead]
  | cond c q a k b ih _ _ => simp only [Expr.withLead, Expr.WellFormed, ih, level_withLead]
  | suffix e s ih => simp only [Expr.withLead, Expr.WellFormed, ih, level_withLead]
  | apply e l i r ih _ => simp only [Expr.withLead, Expr.WellFormed, ih, level_withLead]
  | atom => rfl
  | paren => rfl
  | construct => rfl

theorem withLead_withLead (lead lead' : Text) (e : Expr) :
    (e.withLead lead').withLead lead = e.withLead lead := by
  induction e with
  | unary p e => cases p <;> rfl
  | binary x op y ih _ => rw [Expr.withLead, Expr.withLead, ih, Expr.withLead]
  | cond c q a k b ih _ _ => rw [Expr.withLead, Expr.withLead, ih, Expr.withLead]
  | suffix e s ih => rw [Expr.withLead, Expr.withLead, ih, Expr.withLead]
  | apply e l i r ih _ => rw [Expr.withLead, Expr.withLead, ih, Expr.withLead]
  | atom => rfl
  | paren => rfl
  | construct => rfl

/-- The blanks in front of the node. -/
def Expr.lead (e : Expr) : Text := e.toks.head?.elim [] fun t => t.lead

/-- `node_text`: the text of the node, from its first token to its last. -/
def nodeText (e : Expr) : Text := render (setLead [] e.toks)

theorem render_setLead (lead : Text) {ts : List Token} (h : ts ≠ []) :
    render (setLead lead ts) = lead ++ render (setLead [] ts) := by
  cases ts with
  | nil => exact absurd rfl h
  | cons t ts => simp [setLead, Munch.Lexeme.text]

theorem render_toks (e : Expr) : render e.toks = e.lead ++ nodeText e := by
  have hne := e.toks_ne_nil
  rw [nodeText, Expr.lead]
  cases htoks : e.toks with
  | nil => exact absurd htoks hne
  | cons t ts =>
      rw [← render_setLead _ (by simp)]
      rfl

theorem nodeText_withLead (lead : Text) (e : Expr) : nodeText (e.withLead lead) = nodeText e := by
  rw [nodeText, nodeText, toks_withLead]
  cases e.toks <;> rfl

theorem lead_withLead (lead : Text) (e : Expr) : (e.withLead lead).lead = lead := by
  have hne := e.toks_ne_nil
  rw [Expr.lead, toks_withLead]
  cases h : e.toks with
  | nil => exact absurd h hne
  | cons t ts => rfl

/-- The byte range of the node in its context. -/
def byteRange (c : Ctx) (e : Expr) : ByteSpan :=
  let lo := (render c.before).length + e.lead.length
  ⟨lo, lo + (nodeText e).length⟩

/-- The source with another text in the place of the node. -/
def replaceNode (s : Text) (c : Ctx) (e : Expr) (text : Text) : Text :=
  Splice.splice s ⟨(byteRange c e).lo, (byteRange c e).hi, text⟩

theorem render_plug (c : Ctx) (e : Expr) :
    render (c.plug e).toks = render c.before ++ (e.lead ++ nodeText e) ++ render c.after := by
  rw [Ctx.toks_plug, Munch.render_append, Munch.render_append, render_toks]

/-- The text of another node in the place of the node. -/
theorem replaceNode_plug (c : Ctx) (e new : Expr) (hlead : new.lead = e.lead) (trail : Text) :
    replaceNode (render (c.plug e).toks ++ trail) c e (nodeText new)
      = render (c.plug new).toks ++ trail := by
  have hlo : (byteRange c e).lo = (render c.before ++ e.lead).length := by
    rw [List.length_append]
    rfl
  have hhi : (byteRange c e).hi = (render c.before ++ e.lead ++ nodeText e).length := by
    rw [List.length_append, List.length_append]
    rfl
  have hsource : render (c.plug e).toks ++ trail
      = render c.before ++ e.lead ++ nodeText e ++ (render c.after ++ trail) := by
    rw [render_plug]
    simp only [List.append_assoc]
  rw [replaceNode, Splice.splice, hsource, hlo, hhi, List.drop_left, List.append_assoc (_ ++ e.lead),
    List.take_left, render_plug, hlead]
  simp only [List.append_assoc]

/-! ## §3. Reading it again. -/

/-- The tokens of a context are tokens. -/
theorem lexOK_plug {c : Ctx} {e : Expr} :
    LexOK rules (c.plug e).toks ↔
      LexOK rules c.before ∧ LexOK rules e.toks ∧ LexOK rules c.after
        ∧ Seam rules c.before e.toks ∧ Seam rules e.toks c.after := by
  rw [Ctx.toks_plug, Munch.lexOK_append, Munch.lexOK_append, Munch.seam_append_left e.toks_ne_nil]
  tauto

/-- **Replacing the text of a node and reading again** gives the tree with the
node replaced, exactly if the new node fits and runs into nothing. -/
theorem reparse_iff {s : Text} {c : Ctx} {e new : Expr} (h : parseText isType s = some (c.plug e))
    (hlead : new.lead = e.lead) :
    parseText isType (replaceNode s c e (nodeText new)) = some (c.plug new) ↔
      new.WellFormed isType ∧ c.need isType ≤ new.level isType ∧ LexOK rules new.toks
        ∧ Seam rules c.before new.toks ∧ Seam rules new.toks c.after := by
  have ⟨hwf, hok, trail, htrail, hs⟩ := parseText_iff.mp h
  have ⟨hcwf, _, _⟩ := (Ctx.wellFormed_plug isType c e).mp hwf
  have ⟨hbefore, _, hafter, _, _⟩ := lexOK_plug.mp hok
  rw [hs, replaceNode_plug c e new hlead, parseText_iff, Ctx.wellFormed_plug, lexOK_plug]
  constructor
  · rintro ⟨⟨_, hnew, hneed⟩, ⟨_, hnewok, _, hleft, hright⟩, _⟩
    exact ⟨hnew, hneed, hnewok, hleft, hright⟩
  · rintro ⟨hnew, hneed, hnewok, hleft, hright⟩
    exact ⟨⟨hcwf, hnew, hneed⟩, ⟨hbefore, hnewok, hafter, hleft, hright⟩, trail, htrail, rfl⟩

end ShaderClippy.Hlsl
