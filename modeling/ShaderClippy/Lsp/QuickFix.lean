/-
  ShaderClippy.Lsp.QuickFix

  **A QUICK FIX TAKEN IN THE EDITOR** (`code_actions.cpp`, `handlers.cpp`,
  `document/manager.cpp`).

  There are two ways from a fix to a text. `lint --fix` hands its byte ranges to
  `Rewriter::apply`. The server answers a code action with lines and characters, the
  client makes the edits and sends them back as changes, and `apply_changes` looks for
  their bytes one after another, each in the text that the changes before it left.

  From the last edit to the first none of them moves another: up to the end of each the
  text is still the one in which the positions were counted (`positionToOffset_before_edits`),
  so the bytes found are the bytes of the fix, and both ways give the same text
  (`quickFix_applies`).
-/
import Mathlib
import ShaderClippy.Lsp.RangeQueries
import ShaderClippy.Lsp.Session
import ShaderClippy.Rewriter.Def

namespace ShaderClippy.Lsp

open Lines SourceFile
open Rewriter (DescendingSort PrioritisedFix FixPriority acceptEdit overlaps)

/-! ## §1. The client. -/

/-- The text edits of a code action in a document. -/
def workspaceEdits (action : Json) (uri : Text) : List Json :=
  match ((action.find "edit".toList).bind (·.find "changes".toList)).bind (·.find uri) with
  | some (.array edits) => edits
  | _ => []

/-- A text edit, sent back as a change. -/
def changeOf (edit : Json) : Json :=
  .object [(kRange, (edit.find kRange).getD .null), (kText, (edit.find "newText".toList).getD .null)]

/-- What a client sends when it has made the edits. -/
def didChangeParams (uri : Text) (version : Int64) (edits : List Json) : Json :=
  .object [(kTextDocument, .object [(kUri, .string uri), (kVersionMember, .integer version)]),
    (kContentChanges, .array (edits.map changeOf))]

/-- The edit begins behind where the other one does. -/
def BeginsBehind (a b : Json) : Prop :=
  ∃ r q, (a.find kRange).bind wireRange = some r ∧ (b.find kRange).bind wireRange = some q
    ∧ (q.startLine < r.startLine ∨ q.startLine = r.startLine ∧ q.startCharacter < r.startCharacter)

/-- All edits of a code action, the last one first. -/
structure Takes (action : Json) (uri : Text) (edits : List Json) : Prop where
  all : edits.Perm (workspaceEdits action uri)
  fromBehind : edits.Pairwise BeginsBehind

/-- The edits of a fix lie in the text, do not overlap, and begin at different bytes. -/
structure Separate (contents : Text) (f : Fix Char) : Prop where
  source : ∀ e ∈ f.edits, e.span.source = viewId
  within : ∀ e ∈ f.edits, Within contents e.span.bytes
  apart : f.edits.Pairwise fun a b => a.span.bytes.lo ≠ b.span.bytes.lo
    ∧ overlaps a.span.bytes.lo a.span.bytes.hi b.span.bytes.lo b.span.bytes.hi = false

/-! ## §2. Positions, over the wire and back. -/

/-- **An offset is found again** in any text that begins as the one it was counted in. -/
theorem positionToOffset_before_edits {contents cur : Text} {o : Nat} (h : cur.take o = contents.take o)
    (ho : o ≤ contents.length) :
    positionToOffset cur ((contents.take o).count '\n') (lastLine '\n' (contents.take o)).length = some o := by
  have hcut := wholeLines_append_lastLine '\n' (contents.take o)
  have hfind := positionToOffset_spec (cur.drop o) (whole_wholeLines '\n' (contents.take o))
    (not_mem_lastLine '\n' (contents.take o))
  rw [hcut, ← h, List.take_append_drop, h, count_wholeLines, List.length_take, Nat.min_eq_left ho] at hfind
  exact hfind

section Wire

variable {contents : Text} (hlen : contents.length < 2 ^ 31)

/-- The position of an offset as two natural numbers. -/
def naturalPosition (contents : Text) (o : Nat) : Position :=
  ⟨(contents.take o).count '\n', (lastLine '\n' (contents.take o)).length⟩

theorem naturalPosition_le {o : Nat} (ho : o ≤ contents.length) :
    (naturalPosition contents o).line ≤ contents.length ∧ (naturalPosition contents o).character ≤ contents.length := by
  have hline := List.count_le_length (a := '\n') (l := contents.take o)
  have hchar := length_wholeLines '\n' (contents.take o)
  rw [List.length_take, Nat.min_eq_left ho] at hline hchar
  unfold naturalPosition
  dsimp only
  omega

include hlen

theorem toPosition_natural {o : Nat} (ho : o ≤ contents.length) :
    toPosition contents viewId o
      = ⟨((naturalPosition contents o).line : Nat), ((naturalPosition contents o).character : Nat)⟩ := by
  rw [toPosition_eq hlen ho, lineCol_spec (by omega) ho, LspPosition.mk.injEq]
  unfold naturalPosition
  dsimp only
  omega

/-- What a position is read as when it comes back. -/
theorem wirePosition_toPosition {o : Nat} (ho : o ≤ contents.length) :
    wirePosition (positionJson (toPosition contents viewId o))
      = some (((naturalPosition contents o).line : Int), ((naturalPosition contents o).character : Int)) := by
  obtain ⟨hline, hchar⟩ := naturalPosition_le ho
  rw [toPosition_natural hlen ho, wirePosition_eq_some]
  constructor
  · show some (Int64.ofInt ((naturalPosition contents o).line : Int)).toInt = _
    rw [Int64.toInt_ofInt_of_le (by omega) (by omega)]
  · show some (Int64.ofInt ((naturalPosition contents o).character : Int)).toInt = _
    rw [Int64.toInt_ofInt_of_le (by omega) (by omega)]

variable {e : TextEdit Char} (hsource : e.span.source = viewId) (hwithin : Within contents e.span.bytes)

include hsource hwithin

/-- The range of a text edit, as it is read. -/
theorem wireRange_textEdit :
    ((textEditJson (toTextEdit contents e)).find kRange).bind wireRange
      = some ⟨((naturalPosition contents e.span.bytes.lo).line : Nat),
          ((naturalPosition contents e.span.bytes.lo).character : Nat),
          ((naturalPosition contents e.span.bytes.hi).line : Nat),
          ((naturalPosition contents e.span.bytes.hi).character : Nat)⟩ := by
  have hrange : ((textEditJson (toTextEdit contents e)).find kRange).bind wireRange
      = wireRange (rangeJson positionJson (toRange contents e.span)) := rfl
  rw [hrange, wireRange_eq_some]
  unfold toRange
  rw [hsource]
  constructor
  · show wirePosition (positionJson (toPosition contents viewId e.span.bytes.lo)) = _
    exact wirePosition_toPosition hlen (hwithin.ordered.trans hwithin.inside)
  · show wirePosition (positionJson (toPosition contents viewId e.span.bytes.hi)) = _
    exact wirePosition_toPosition hlen hwithin.inside

/-- The change that a text edit comes back as. -/
theorem parseContentChange_changeOf :
    parseContentChange (changeOf (textEditJson (toTextEdit contents e)))
      = ⟨true, (naturalPosition contents e.span.bytes.lo).line, (naturalPosition contents e.span.bytes.lo).character,
          (naturalPosition contents e.span.bytes.hi).line, (naturalPosition contents e.span.bytes.hi).character,
          e.replacement⟩ := by
  obtain ⟨hloLine, hloChar⟩ := naturalPosition_le (hwithin.ordered.trans hwithin.inside)
  obtain ⟨hhiLine, hhiChar⟩ := naturalPosition_le hwithin.inside
  have hread : ((changeOf (textEditJson (toTextEdit contents e))).find kRange).bind wireRange
      = ((textEditJson (toTextEdit contents e)).find kRange).bind wireRange := rfl
  have htext : changeText (changeOf (textEditJson (toTextEdit contents e))) = e.replacement := rfl
  have hlow : ∀ n : Nat, n ≤ contents.length → getUint32 (n : Int) = n := by
    intro n hn
    unfold getUint32
    omega
  unfold parseContentChange
  rw [hread, wireRange_textEdit hlen hsource hwithin, htext]
  dsimp only
  rw [hlow _ hloLine, hlow _ hloChar, hlow _ hhiLine, hlow _ hhiChar]

/-- **One edit** in a text that is still the one it was made for, up to its end. -/
theorem applyOne_changeOf {cur : Text} (h : cur.take e.span.bytes.hi = contents.take e.span.bytes.hi) :
    applyOne cur (parseContentChange (changeOf (textEditJson (toTextEdit contents e))))
      = (Splice.splice cur ⟨e.span.bytes.lo, e.span.bytes.hi, e.replacement⟩, true) := by
  have hlow : cur.take e.span.bytes.lo = contents.take e.span.bytes.lo := by
    have := congrArg (List.take e.span.bytes.lo) h
    rwa [List.take_take, List.take_take, Nat.min_eq_left hwithin.ordered] at this
  rw [parseContentChange_changeOf hlen hsource hwithin]
  unfold applyOne naturalPosition
  dsimp only
  rw [positionToOffset_before_edits hlow (hwithin.ordered.trans hwithin.inside),
    positionToOffset_before_edits h hwithin.inside]
  exact if_neg (Nat.not_lt.mpr hwithin.ordered)

end Wire

/-! ## §3. The edits of a fix, one after another. -/

/-- The range and the text of an edit. -/
def spliceOf (e : TextEdit Char) : Splice.Edit Char := ⟨e.span.bytes.lo, e.span.bytes.hi, e.replacement⟩

theorem length_le_of_take_eq {xs ys : Text} {n : Nat} (h : xs.take n = ys.take n) (hn : n ≤ ys.length) :
    n ≤ xs.length := by
  have := congrArg List.length h
  rw [List.length_take, List.length_take, Nat.min_eq_left hn] at this
  omega

/-- **From the last edit to the first** the changes are splices at the bytes of the fix. -/
theorem applyEach_changesOf {contents : Text} (hlen : contents.length < 2 ^ 31) {es : List (TextEdit Char)}
    (hsource : ∀ e ∈ es, e.span.source = viewId) (hwithin : ∀ e ∈ es, Within contents e.span.bytes)
    (hdesc : Splice.Descending (es.map spliceOf)) :
    ∀ {cur : Text}, (∀ e ∈ es, cur.take e.span.bytes.hi = contents.take e.span.bytes.hi) →
      applyEach cur (es.map fun e => parseContentChange (changeOf (textEditJson (toTextEdit contents e))))
        = (Splice.run cur (es.map spliceOf), true) := by
  induction es with
  | nil => exact fun _ => rfl
  | cons e es ih =>
      intro cur hcur
      have hw := hwithin e List.mem_cons_self
      have hinRange : (spliceOf e).InRange cur.length :=
        ⟨hw.ordered, length_le_of_take_eq (hcur e List.mem_cons_self) hw.inside⟩
      rw [List.map_cons, List.map_cons, applyEach,
        applyOne_changeOf hlen (hsource e List.mem_cons_self) hw (hcur e List.mem_cons_self), Splice.run_cons hinRange]
      obtain ⟨hbehind, hrest⟩ := List.pairwise_cons.mp hdesc
      refine ih (fun f hf => hsource f (List.mem_cons_of_mem _ hf)) (fun f hf => hwithin f (List.mem_cons_of_mem _ hf))
        hrest ?_
      -- what is left ends where the edit begins, or before
      intro f hf
      have hle : f.span.bytes.hi ≤ (spliceOf e).lo := hbehind _ (List.mem_map_of_mem hf)
      exact (Splice.take_splice hinRange hle).trans (hcur f (List.mem_cons_of_mem _ hf))

/-- Edits that begin one behind the other and do not overlap are in order. -/
theorem descending_of_apart {es : List (TextEdit Char)}
    (hordered : ∀ e ∈ es, e.span.bytes.lo ≤ e.span.bytes.hi)
    (hapart : es.Pairwise fun a b =>
      overlaps a.span.bytes.lo a.span.bytes.hi b.span.bytes.lo b.span.bytes.hi = false)
    (hsorted : es.Pairwise fun a b => b.span.bytes.lo < a.span.bytes.lo) : Splice.Descending (es.map spliceOf) := by
  refine List.pairwise_map.mpr ((hapart.and hsorted).imp_of_mem ?_)
  intro a b ha _ hab
  have hno : ¬ (a.span.bytes.lo < b.span.bytes.hi ∧ b.span.bytes.lo < a.span.bytes.hi) := fun hov =>
    Bool.false_ne_true (hab.1.symm.trans (Rewriter.overlaps_iff.mpr hov))
  have hlt := hab.2
  have hle := hordered a ha
  show b.span.bytes.hi ≤ a.span.bytes.lo
  omega

/-! ## §4. The rewriter, on one fix. -/

/-- The only fix is accepted whole. -/
theorem accept_single (pf : PrioritisedFix Char) :
    (Rewriter.accept [pf]).acceptedEdits = pf.fix.edits.map (acceptEdit pf) := by
  have horder : Rewriter.order [pf] = [(pf, 0)] := rfl
  have hfree : Rewriter.findOverlap [] pf.fix = none := by
    unfold Rewriter.findOverlap
    rw [List.findSome?_eq_none_iff]
    exact fun _ _ => rfl
  unfold Rewriter.accept Rewriter.acceptStep
  rw [horder]
  dsimp only [List.foldl_cons, List.foldl_nil]
  split
  next hnil => rw [hnil, List.map_nil]
  next first rest hedits =>
    rw [hfree]
    dsimp only
    rw [List.nil_append]

/-- **One fix whose edits begin at different bytes** is spliced from the last edit to the
first, whatever the sort. -/
theorem apply_single (sort : DescendingSort Char) (source : Text) (pf : PrioritisedFix Char)
    {es : List (TextEdit Char)} (hperm : es.Perm pf.fix.edits)
    (hsorted : es.Pairwise fun a b => b.span.bytes.lo < a.span.bytes.lo) :
    (Rewriter.apply sort source [pf]).1 = Splice.run source (es.map spliceOf) := by
  have hrun : sort.run (pf.fix.edits.map (acceptEdit pf)) = es.map (acceptEdit pf) := by
    have hours : (es.map (acceptEdit pf)).Pairwise fun a b => b.byteLo < a.byteLo := List.pairwise_map.mpr hsorted
    have hsame : (sort.run (pf.fix.edits.map (acceptEdit pf))).Perm (es.map (acceptEdit pf)) :=
      (sort.perm _).trans (hperm.symm.map _)
    have hstrict : ∀ a ∈ es.map (acceptEdit pf), ∀ b ∈ es.map (acceptEdit pf), a.byteLo = b.byteLo → a = b := by
      intro a ha b hb heq
      by_contra hne
      have hsymm : Std.Symm fun a b : Rewriter.AcceptedEdit Char => a.byteLo ≠ b.byteLo := ⟨fun _ _ h => h.symm⟩
      have hdiff : (es.map (acceptEdit pf)).Pairwise fun a b => a.byteLo ≠ b.byteLo :=
        hours.imp fun h => (Nat.ne_of_lt h).symm
      exact hdiff.forall ha hb hne heq
    refine hsame.eq_of_pairwise ?_ (sort.sorted _) (hours.imp Nat.le_of_lt)
    intro a b ha hb hba hab
    exact hstrict a (hsame.mem_iff.mp ha) b hb (Nat.le_antisymm hab hba)
  rw [Rewriter.apply_fst, accept_single, hrun, List.map_map]
  rfl

/-! ## §5. There and back. -/

variable {Ext κ : Type} {o : Outside Ext κ} {t t' : Turn Ext} {s : ServerState}

/-- The edits in a code action are those of the fix. -/
theorem workspaceEdits_codeAction (contents uri : Text) (d : Diagnostic) (f : Fix Char) :
    workspaceEdits (codeActionJson (buildCodeAction contents uri d f)) uri
      = f.edits.map fun e => textEditJson (toTextEdit contents e) := by
  have hchanges : ((codeActionJson (buildCodeAction contents uri d f)).find "edit".toList).bind (·.find "changes".toList)
      = some (.object [(uri, .array ((f.edits.map (toTextEdit contents)).map textEditJson))]) := rfl
  have hfind : (Json.object [(uri, .array ((f.edits.map (toTextEdit contents)).map textEditJson))]).find uri
      = some (.array ((f.edits.map (toTextEdit contents)).map textEditJson)) := by
    simp [Json.find]
  unfold workspaceEdits
  rw [hchanges, Option.bind_some, hfind]
  dsimp only
  rw [List.map_map]
  rfl

/-- What the server answers a code action with. -/
theorem mem_documentResult {uri : Text} {doc : OpenDocument} (hdoc : s.docs.find uri = some doc) {params : Json}
    (huri : extractTextDocumentUri params = uri) {actions : List Json}
    (hreply : documentResult o t s kCodeAction params = .array actions) {a : Json} (ha : a ∈ actions) :
    ∃ d ∈ doc.latestDiagnostics, ∃ f ∈ d.fixes, a = codeActionJson (buildCodeAction doc.contents uri d f) := by
  unfold documentResult at hreply
  cases hrequest : documentRequest kCodeAction params with
  | none =>
      rw [hrequest] at hreply
      dsimp only at hreply
      rw [if_pos rfl, Json.array.injEq] at hreply
      rw [← hreply] at ha
      exact absurd ha List.not_mem_nil
  | some message =>
      have hmessage : ∃ range, message = .codeAction uri range := by
        unfold documentRequest at hrequest
        rw [huri] at hrequest
        dsimp only at hrequest
        split at hrequest
        case isTrue => cases hrequest
        case isFalse =>
          rw [if_pos rfl] at hrequest
          obtain ⟨range, _, hbounds⟩ := Option.bind_eq_some_iff.mp hrequest
          split at hbounds
          next start stop _ _ => exact ⟨_, (Option.some.inj hbounds).symm⟩
          next => cases hbounds
      obtain ⟨range, rfl⟩ := hmessage
      have hout : (handle o.host s.docs (s.event t (.codeAction uri range))).2
          = [.codeActions (codeActionsForRange doc.contents uri doc.latestDiagnostics range)] := by
        show onCodeAction s.docs uri range = _
        unfold onCodeAction
        rw [hdoc]
      rw [hrequest] at hreply
      dsimp only at hreply
      rw [hout] at hreply
      dsimp only at hreply
      rw [Json.array.injEq] at hreply
      rw [← hreply] at ha
      obtain ⟨action, haction, rfl⟩ := List.mem_map.mp ha
      obtain ⟨d, hd, hof⟩ := List.mem_flatMap.mp haction
      split at hof
      case isTrue => exact absurd hof List.not_mem_nil
      case isFalse =>
        dsimp only at hof
        split at hof
        case isTrue =>
          obtain ⟨f, hf, rfl⟩ := List.mem_map.mp hof
          exact ⟨d, hd, f, hf, rfl⟩
        case isFalse => exact absurd hof List.not_mem_nil

/-- The text after changes that all fit. -/
theorem contents_onDidChange {Env : Type} {host : Host Env} {docs : DocumentManager} {uri : Text} {doc : OpenDocument}
    (hdoc : docs.find uri = some doc) (version : Int) {changes : List ContentChange} {text : Text}
    (hall : applyEach doc.contents changes = (text, true)) (ev : Event Env) :
    ((onDidChange host docs uri version changes ev).1.find uri).map OpenDocument.contents = some text := by
  have happly := DocumentManager.applyChanges_open hdoc version changes ev.changedAt
  rw [hall] at happly
  dsimp only at happly
  unfold onDidChange
  rw [happly, if_pos rfl]
  dsimp only
  split
  case isTrue => rw [DocumentManager.find_set_self, Option.map_some]
  case isFalse =>
    unfold lintAndPublish DocumentManager.markLinted
    rw [DocumentManager.find_set_self]
    dsimp only
    rw [DocumentManager.find_set_self]
    dsimp only
    rw [DocumentManager.find_set_self, Option.map_some]

/-- A notification of changes, read. -/
theorem onNotification_didChange (uri : Text) (huri : uri ≠ []) (version : Int64) (edits : List Json) :
    (onNotification o t s kDidChange (didChangeParams uri version edits)).1.docs
      = (onDidChange o.host s.docs uri (extractTextDocumentVersion (didChangeParams uri version edits))
          ((edits.map changeOf).map parseContentChange)
          (s.event t (.didChange uri (extractTextDocumentVersion (didChangeParams uri version edits))
            ((edits.map changeOf).map parseContentChange)))).1 := by
  have hextract : extractTextDocumentUri (didChangeParams uri version edits) = uri := rfl
  have hchanges : parseContentChanges (didChangeParams uri version edits)
      = (edits.map changeOf).map parseContentChange := rfl
  have hmessage : documentNotification kDidChange (didChangeParams uri version edits)
      = some (.didChange uri (extractTextDocumentVersion (didChangeParams uri version edits))
          ((edits.map changeOf).map parseContentChange)) := by
    unfold documentNotification
    rw [hextract, hchanges]
    dsimp only
    rw [if_neg huri, if_neg (by decide), if_pos rfl]
  unfold onNotification
  rw [if_neg (by decide), if_neg (by decide), hmessage]
  rfl

/-- The edits that a client sends, as those of the fix in the order in which they are
sent. -/
theorem exists_edits {contents uri : Text} (hlen : contents.length < 2 ^ 31) {d : Diagnostic} {f : Fix Char}
    (hf : Separate contents f) {edits : List Json}
    (htakes : Takes (codeActionJson (buildCodeAction contents uri d f)) uri edits) :
    ∃ es : List (TextEdit Char), es.Perm f.edits ∧ (es.Pairwise fun a b => b.span.bytes.lo < a.span.bytes.lo)
      ∧ edits = es.map fun e => textEditJson (toTextEdit contents e) := by
  have hperm := htakes.all
  rw [workspaceEdits_codeAction] at hperm
  obtain ⟨es, hrel, hes⟩ : Relation.Comp (List.Forall₂ fun (j : Json) e => j = textEditJson (toTextEdit contents e))
      List.Perm edits f.edits := by
    refine List.perm_comp_forall₂ hperm ?_
    rw [List.forall₂_map_left_iff]
    exact List.forall₂_same.mpr fun _ _ => rfl
  have hedits : edits = es.map fun e => textEditJson (toTextEdit contents e) := by
    rw [← List.forall₂_eq_eq_eq, List.forall₂_map_right_iff]
    exact hrel
  refine ⟨es, hes, ?_, hedits⟩
  have hbehind := htakes.fromBehind
  rw [hedits, List.pairwise_map] at hbehind
  refine hbehind.imp_of_mem ?_
  intro a b ha hb hab
  have hwa := hf.within a (hes.mem_iff.mp ha)
  have hwb := hf.within b (hes.mem_iff.mp hb)
  obtain ⟨r, q, hr, hq, hlt⟩ := hab
  rw [wireRange_textEdit hlen (hf.source a (hes.mem_iff.mp ha)) hwa, Option.some.injEq] at hr
  rw [wireRange_textEdit hlen (hf.source b (hes.mem_iff.mp hb)) hwb, Option.some.injEq] at hq
  subst hr hq
  refine ((strictMonoOn_toPosition hlen).lt_iff_lt (hwb.ordered.trans hwb.inside) (hwa.ordered.trans hwa.inside)).mp ?_
  rw [toPosition_natural hlen (hwb.ordered.trans hwb.inside), toPosition_natural hlen (hwa.ordered.trans hwa.inside)]
  unfold LspPosition.key
  rw [Prod.Lex.toLex_lt_toLex]
  exact hlt

/-- **A quick fix taken in the editor gives the text that the rewriter gives**: whatever
code action the server answers with, a client that makes its edits and sends them back
leaves the server with the text of `Rewriter::apply` on the fix. Only of this fix the
edits need be separate. -/
theorem quickFix_applies (o : Outside Ext κ) (t t' : Turn Ext) (s : ServerState) {uri : Text} (huri : uri ≠ [])
    {doc : OpenDocument} (hdoc : s.docs.find uri = some doc) (hlen : doc.contents.length < 2 ^ 31) {params : Json}
    (hparams : extractTextDocumentUri params = uri) {actions : List Json}
    (hreply : documentResult o t s kCodeAction params = .array actions) {a : Json} (ha : a ∈ actions)
    (hfix : ∀ d ∈ doc.latestDiagnostics, ∀ f ∈ d.fixes, a = codeActionJson (buildCodeAction doc.contents uri d f) →
      Separate doc.contents f)
    {edits : List Json} (htakes : Takes a uri edits) (version : Int64) :
    ∃ d ∈ doc.latestDiagnostics, ∃ f ∈ d.fixes, a = codeActionJson (buildCodeAction doc.contents uri d f)
      ∧ ∀ (sort : DescendingSort Char) (priority : FixPriority),
          ((onNotification o t' s kDidChange (didChangeParams uri version edits)).1.docs.find uri).map OpenDocument.contents
            = some (Rewriter.apply sort doc.contents [⟨priority, f⟩]).1 := by
  obtain ⟨d, hd, f, hf, rfl⟩ := mem_documentResult hdoc hparams hreply ha
  refine ⟨d, hd, f, hf, rfl, fun sort priority => ?_⟩
  have hseparate := hfix d hd f hf rfl
  obtain ⟨es, hperm, hsorted, rfl⟩ := exists_edits hlen hseparate htakes
  have hapart : es.Pairwise fun a b =>
      overlaps a.span.bytes.lo a.span.bytes.hi b.span.bytes.lo b.span.bytes.hi = false := by
    refine (hseparate.apart.imp And.right).perm hperm.symm ?_
    intro a b hab
    rw [← Bool.not_eq_true, Rewriter.overlaps_iff] at hab ⊢
    exact fun h => hab h.symm
  have hwithin : ∀ e ∈ es, Within doc.contents e.span.bytes := fun e he => hseparate.within e (hperm.mem_iff.mp he)
  have hdesc : Splice.Descending (es.map spliceOf) :=
    descending_of_apart (fun e he => (hwithin e he).ordered) hapart hsorted
  have hall := @applyEach_changesOf doc.contents hlen es (fun e he => hseparate.source e (hperm.mem_iff.mp he)) hwithin
    hdesc doc.contents fun _ _ => rfl
  rw [onNotification_didChange uri huri, apply_single sort doc.contents ⟨priority, f⟩ hperm hsorted]
  refine contents_onDidChange hdoc _ ?_ _
  rw [List.map_map, List.map_map]
  exact hall

/-- A fix of `bc` in the second line: two lines before the `b`, and a `z` for the `c`. -/
def twoEdits : Fix Char :=
  ⟨"d".toList, true, [⟨⟨viewId, ⟨2, 2⟩⟩, "x\ny".toList⟩, ⟨⟨viewId, ⟨3, 4⟩⟩, "z".toList⟩]⟩

/-- It is offered for the document `u`. -/
def twoEditsState : ServerState :=
  { ServerState.initial with
    docs := DocumentManager.empty.set "u".toList (some ⟨"u".toList, "p".toList, "a\nbc".toList, 1,
      [⟨"r".toList, .warning, ⟨viewId, ⟨2, 4⟩⟩, "m".toList, [twoEdits]⟩], 0, 0⟩) }

/-- A request for code actions on the `b`. -/
def secondLineParams : Json :=
  .object [(kTextDocument, .object [(kUri, .string "u".toList)]),
    (kRange, rangeJson positionJson ⟨⟨1, 0⟩, ⟨1, 1⟩⟩)]

/-- The action it is answered with, and its edits from behind. -/
def twoEditsAction : Json :=
  codeActionJson (buildCodeAction "a\nbc".toList "u".toList
    ⟨"r".toList, .warning, ⟨viewId, ⟨2, 4⟩⟩, "m".toList, [twoEdits]⟩ twoEdits)

def twoEditsReversed : List Json := (workspaceEdits twoEditsAction "u".toList).reverse

/-- A linter that finds nothing. -/
def unlinted : Outside Unit Unit := ⟨fun _ _ _ _ _ => [], fun _ _ => none, fun _ => []⟩

theorem quickFix_applies_twoEdits :
    ∃ d ∈ [(⟨"r".toList, .warning, ⟨viewId, ⟨2, 4⟩⟩, "m".toList, [twoEdits]⟩ : Diagnostic)], ∃ f ∈ d.fixes,
      twoEditsAction = codeActionJson (buildCodeAction "a\nbc".toList "u".toList d f)
      ∧ ∀ (sort : DescendingSort Char) (priority : FixPriority),
          ((onNotification unlinted ⟨(), 0, 0, 0⟩ twoEditsState kDidChange
              (didChangeParams "u".toList 2 twoEditsReversed)).1.docs.find "u".toList).map OpenDocument.contents
            = some (Rewriter.apply sort "a\nbc".toList [⟨priority, f⟩]).1 := by
  refine quickFix_applies unlinted ⟨(), 0, 0, 0⟩ ⟨(), 0, 0, 0⟩ twoEditsState (by decide) rfl (by decide)
    (by decide : extractTextDocumentUri secondLineParams = "u".toList)
    (rfl : documentResult unlinted ⟨(), 0, 0, 0⟩ twoEditsState kCodeAction secondLineParams
      = .array [twoEditsAction])
    List.mem_cons_self ?_ ⟨List.reverse_perm _, ?_⟩ 2
  · intro d hd f hf _
    cases List.mem_singleton.mp hd
    cases List.mem_singleton.mp hf
    exact ⟨by decide, fun e he => ⟨by revert e; decide, by revert e; decide⟩, by decide⟩
  · exact List.pairwise_pair.mpr ⟨_, _, rfl, rfl, by decide⟩

example : ((onNotification unlinted ⟨(), 0, 0, 0⟩ twoEditsState kDidChange
    (didChangeParams "u".toList 2 twoEditsReversed)).1.docs.find "u".toList).map OpenDocument.contents
      = some "a\nx\nybz".toList := by decide +kernel

end ShaderClippy.Lsp
