/-
  ShaderClippy.Lsp.StaleFixes

  **WHICH RUNS NEVER SHOW STALE FIXES.**

  Code actions and hovers are answered from the diagnostics of the last lint,
  resolved in the text of now. `Fresh` is the invariant that makes these two
  belong together; every handler keeps it except `didChange`, which changes
  the text first and may then skip the lint:

    • the debounce gate compares the clock with the time of this very change,
      so once a document has been linted a change is not linted again;
    • a batch that fails half-way returns with its first edits applied.

  `Relints` is what rules both out for a step. In every run whose steps all
  satisfy it, everything the server sends is computed from a lint of the
  current text (`server_fresh`); `debounced_change_stale` is a run without.
-/
import ShaderClippy.Lsp.Server

namespace ShaderClippy.Lsp

open Lines

variable {Env : Type} (host : Host Env)

/-! ## §1. What fresh means. -/

/-- The stored diagnostics are a lint of the stored text. -/
def Fresh (docs : DocumentManager) : Prop :=
  ∀ uri doc, docs.find uri = some doc →
    ∃ env, doc.latestDiagnostics = host.lint env doc.path doc.contents

/-- Every range, edit and hover text of an output comes from a span of
`diagnostics`, resolved in `contents`. -/
def RefersTo (contents : Text) (diagnostics : List Diagnostic) : Output → Prop
  | .publishDiagnostics _ _ ds => ∀ d ∈ ds, ∃ diag ∈ diagnostics, d = toLspDiagnostic contents diag
  | .codeActions actions =>
      ∀ a ∈ actions,
        (∀ d ∈ a.diagnostics, ∃ diag ∈ diagnostics, d = toLspDiagnostic contents diag)
          ∧ ∀ e ∈ a.edits, ∃ diag ∈ diagnostics, ∃ fix ∈ diag.fixes, ∃ edit ∈ fix.edits,
              e = toTextEdit contents edit
  | .hover text => ∀ t, text = some t → ∃ diag ∈ diagnostics, t = hoverText diag

/-- An output about a document refers to a lint of its current text; about a
closed document it shows nothing. -/
def OutputFresh (docs : DocumentManager) (uri : Text) (output : Output) : Prop :=
  match docs.find uri with
  | none => RefersTo [] [] output
  | some doc => ∃ env, RefersTo doc.contents (host.lint env doc.path doc.contents) output

/-- Everything sent in a run is fresh when it is sent. -/
def FreshRun : DocumentManager → List (Event Env) → Prop
  | _, [] => True
  | docs, ev :: evs =>
      (∀ o ∈ (handle host docs ev).2, OutputFresh host (handle host docs ev).1 ev.message.uri o)
        ∧ FreshRun (handle host docs ev).1 evs

/-- A change is followed by a lint, or changes nothing: the document is not
open, or the batch leaves its text as it was, or the whole batch applies and
the debounce gate lets the lint through. -/
def Relints (docs : DocumentManager) (ev : Event Env) : Prop :=
  match ev.message with
  | .didChange uri _ changes =>
      ∀ doc, docs.find uri = some doc →
        (applyEach doc.contents changes).1 = doc.contents
          ∨ ((applyEach doc.contents changes).2 = true
              ∧ (doc.lastLintTime = 0 ∨ debounce ≤ ev.gateAt - ev.changedAt))
  | _ => True

/-- Every step of the run re-lints what it changes. -/
def RelintsAll : DocumentManager → List (Event Env) → Prop
  | _, [] => True
  | docs, ev :: evs => Relints docs ev ∧ RelintsAll (handle host docs ev).1 evs

/-! ## §2. Answers refer to what they are computed from. -/

theorem codeActionsForRange_refersTo (contents uri : Text) (diagnostics : List Diagnostic)
    (request : LspRange) :
    RefersTo contents diagnostics
      (.codeActions (codeActionsForRange contents uri diagnostics request)) := by
  intro a ha
  simp only [codeActionsForRange, List.mem_flatMap] at ha
  have ⟨diag, hdiag, hin⟩ := ha
  split at hin
  · cases hin
  · split at hin
    · have ⟨fix, hfix, heq⟩ := List.mem_map.mp hin
      subst heq
      refine ⟨?_, ?_⟩
      · intro d hd
        exact ⟨diag, hdiag, List.mem_singleton.mp hd⟩
      · intro e he
        have ⟨edit, hedit, hconv⟩ := List.mem_map.mp he
        exact ⟨diag, hdiag, fix, hfix, edit, hedit, hconv.symm⟩
    · cases hin

theorem betterDiagnostic_mem {contents : Text} {cursor : LspPosition} {best : Option Diagnostic}
    {d diag : Diagnostic} (h : betterDiagnostic contents cursor best d = some diag) :
    best = some diag ∨ d = diag := by
  simp only [betterDiagnostic] at h
  split at h
  · cases best with
    | none => exact Or.inr (Option.some.inj h)
    | some b =>
        simp only at h
        split at h
        · exact Or.inr (Option.some.inj h)
        · exact Or.inl h
  · exact Or.inl h

theorem bestDiagnostic_mem {contents : Text} {cursor : LspPosition} (diags : List Diagnostic) :
    ∀ {best : Option Diagnostic} {diag : Diagnostic},
      diags.foldl (betterDiagnostic contents cursor) best = some diag →
        best = some diag ∨ diag ∈ diags := by
  induction diags with
  | nil =>
      intro best diag h
      exact Or.inl h
  | cons d ds ih =>
      intro best diag h
      rcases ih h with hbetter | hmem
      · rcases betterDiagnostic_mem hbetter with hbest | heq
        · exact Or.inl hbest
        · exact Or.inr (heq ▸ List.mem_cons_self ..)
      · exact Or.inr (List.mem_cons_of_mem _ hmem)

theorem hoverForPosition_refersTo (contents : Text) (diagnostics : List Diagnostic)
    (cursor : LspPosition) :
    RefersTo contents diagnostics (.hover (hoverForPosition contents diagnostics cursor)) := by
  intro t ht
  cases hbest : bestDiagnostic contents cursor diagnostics with
  | none =>
      rw [hoverForPosition, hbest] at ht
      cases ht
  | some diag =>
      rw [hoverForPosition, hbest] at ht
      cases ht
      rcases bestDiagnostic_mem diagnostics hbest with h | h
      · cases h
      · exact ⟨diag, h, rfl⟩

/-! ## §3. One step. -/

variable {host}

/-- Everything a step sends is fresh, and so is the state it leaves. -/
def StepFresh (host : Host Env) (uri : Text) (step : DocumentManager × List Output) : Prop :=
  Fresh host step.1 ∧ ∀ o ∈ step.2, OutputFresh host step.1 uri o

/-- Other documents stay as they are. -/
theorem fresh_set {docs : DocumentManager} (h : Fresh host docs) {uri : Text} {doc : OpenDocument}
    (hdoc : ∃ env, doc.latestDiagnostics = host.lint env doc.path doc.contents) :
    Fresh host (docs.set uri (some doc)) := by
  intro u d hd
  by_cases hu : u = uri
  · rw [hu, DocumentManager.find_set_self] at hd
    cases hd
    exact hdoc
  · rw [DocumentManager.find_set_ne docs _ hu] at hd
    exact h u d hd

/-- A lint makes its document fresh, whatever it was before. -/
theorem lintAndPublish_fresh {docs : DocumentManager} {uri : Text} {ev : Event Env}
    (h : ∀ u doc, u ≠ uri → docs.find u = some doc →
      ∃ env, doc.latestDiagnostics = host.lint env doc.path doc.contents) :
    StepFresh host uri (lintAndPublish host docs uri ev) := by
  cases hdoc : docs.find uri with
  | none =>
      rw [lintAndPublish, hdoc]
      refine ⟨?_, by simp⟩
      intro u d hd
      have hu : u ≠ uri := by
        intro hu
        rw [hu, hdoc] at hd
        cases hd
      exact h u d hu hd
  | some doc =>
      have hfind : ∀ u, (lintAndPublish host docs uri ev).1.find u
          = if u = uri then some { doc with
              latestDiagnostics := host.lint ev.env doc.path doc.contents,
              lastLintTime := ev.lintedAt }
            else docs.find u := by
        intro u
        rw [lintAndPublish, hdoc]
        simp only [DocumentManager.markLinted, DocumentManager.find_set_self]
        by_cases hu : u = uri <;> simp [hu]
      refine ⟨?_, ?_⟩
      · intro u d hd
        rw [hfind] at hd
        by_cases hu : u = uri
        · rw [if_pos hu] at hd
          cases hd
          exact ⟨ev.env, rfl⟩
        · rw [if_neg hu] at hd
          exact h u d hu hd
      · intro o ho
        have hout : (lintAndPublish host docs uri ev).2
            = [.publishDiagnostics uri (some doc.version)
                ((host.lint ev.env doc.path doc.contents).map (toLspDiagnostic doc.contents))] := by
          rw [lintAndPublish, hdoc]
        rw [hout, List.mem_singleton] at ho
        subst ho
        rw [OutputFresh, hfind, if_pos rfl]
        refine ⟨ev.env, ?_⟩
        intro d hd
        have ⟨diag, hdiag, heq⟩ := List.mem_map.mp hd
        exact ⟨diag, hdiag, heq.symm⟩

theorem onDidOpen_fresh {docs : DocumentManager} (h : Fresh host docs) (uri text : Text)
    (version : Int) (ev : Event Env) :
    StepFresh host uri (onDidOpen host docs uri text version ev) := by
  apply lintAndPublish_fresh
  intro u doc hu hdoc
  rw [DocumentManager.openDocument, DocumentManager.find_set_ne docs _ hu] at hdoc
  exact h u doc hdoc

theorem onDidClose_fresh {docs : DocumentManager} (h : Fresh host docs) (uri : Text) :
    StepFresh host uri (onDidClose docs uri) := by
  refine ⟨?_, ?_⟩
  · intro u doc hdoc
    by_cases hu : u = uri
    · rw [hu, onDidClose, DocumentManager.close, DocumentManager.find_set_self] at hdoc
      cases hdoc
    · rw [onDidClose, DocumentManager.close, DocumentManager.find_set_ne docs _ hu] at hdoc
      exact h u doc hdoc
  · intro o ho
    have heq : o = .publishDiagnostics uri none [] := List.mem_singleton.mp ho
    subst heq
    rw [OutputFresh, onDidClose, DocumentManager.close, DocumentManager.find_set_self]
    intro d hd
    cases hd

theorem onDidChange_fresh {docs : DocumentManager} (h : Fresh host docs) {uri : Text}
    {version : Int} {changes : List ContentChange} {ev : Event Env}
    (hrelint : ∀ doc, docs.find uri = some doc →
      (applyEach doc.contents changes).1 = doc.contents
        ∨ ((applyEach doc.contents changes).2 = true
            ∧ (doc.lastLintTime = 0 ∨ debounce ≤ ev.gateAt - ev.changedAt))) :
    StepFresh host uri (onDidChange host docs uri version changes ev) := by
  cases hdoc : docs.find uri with
  | none =>
      have happly : docs.applyChanges uri version changes ev.changedAt = (docs, false) := by
        rw [DocumentManager.applyChanges, hdoc]
      rw [onDidChange, happly]
      exact ⟨h, by simp⟩
  | some doc =>
      have ⟨env, henv⟩ := h uri doc hdoc
      have hothers : ∀ d : OpenDocument, ∀ u e, u ≠ uri →
          (docs.set uri (some d)).find u = some e →
            ∃ env, e.latestDiagnostics = host.lint env e.path e.contents := by
        intro d u e hu he
        rw [DocumentManager.find_set_ne docs _ hu] at he
        exact h u e he
      cases happly : applyEach doc.contents changes with
      | mk contents ok =>
          have hcond := hrelint doc hdoc
          rw [happly] at hcond
          cases ok with
          | false =>
              have hstep : docs.applyChanges uri version changes ev.changedAt
                  = (docs.set uri (some { doc with contents := contents }), false) := by
                simp only [DocumentManager.applyChanges, hdoc, happly]
              have hsame : contents = doc.contents := by simpa using hcond
              rw [onDidChange, hstep]
              exact ⟨fresh_set h ⟨env, by rw [hsame]; exact henv⟩, by simp⟩
          | true =>
              have hstep : docs.applyChanges uri version changes ev.changedAt
                  = (docs.set uri (some { doc with
                      contents := contents, version := version,
                      lastChangeTime := ev.changedAt }), true) := by
                simp only [DocumentManager.applyChanges, hdoc, happly]
              rw [onDidChange, hstep]
              simp only
              split
              case isFalse _ => exact lintAndPublish_fresh (hothers _)
              case isTrue hgate =>
                  -- the gate holds the lint back: only an unchanged text passes
                  have hsame : contents = doc.contents := by
                    rcases hcond with hsame | ⟨_, hopen⟩
                    · exact hsame
                    · rw [DocumentManager.shouldDebounceLint,
                        DocumentManager.find_set_self] at hgate
                      rcases hopen with hzero | hlate
                      · simp [hzero] at hgate
                      · simp only [Bool.if_false_left, Bool.and_eq_true, decide_eq_true_eq] at hgate
                        exact absurd hgate.2 (Nat.not_lt.mpr hlate)
                  exact ⟨fresh_set h ⟨env, by rw [hsame]; exact henv⟩, by simp⟩

theorem onCodeAction_fresh {docs : DocumentManager} (h : Fresh host docs) (uri : Text)
    (range : LspRange) : StepFresh host uri (docs, onCodeAction docs uri range) := by
  refine ⟨h, ?_⟩
  intro o ho
  rw [OutputFresh]
  rw [onCodeAction] at ho
  cases hdoc : docs.find uri with
  | none =>
      rw [hdoc] at ho
      rw [List.mem_singleton.mp ho]
      simp [RefersTo]
  | some doc =>
      rw [hdoc] at ho
      have ⟨env, henv⟩ := h uri doc hdoc
      rw [List.mem_singleton.mp ho]
      exact ⟨env, henv ▸ codeActionsForRange_refersTo _ _ _ _⟩

theorem onHover_fresh {docs : DocumentManager} (h : Fresh host docs) (uri : Text)
    (position : LspPosition) : StepFresh host uri (docs, onHover docs uri position) := by
  refine ⟨h, ?_⟩
  intro o ho
  rw [OutputFresh]
  rw [onHover] at ho
  cases hdoc : docs.find uri with
  | none =>
      rw [hdoc] at ho
      rw [List.mem_singleton.mp ho]
      simp [RefersTo]
  | some doc =>
      rw [hdoc] at ho
      have ⟨env, henv⟩ := h uri doc hdoc
      rw [List.mem_singleton.mp ho]
      exact ⟨env, henv ▸ hoverForPosition_refersTo _ _ _⟩

/-- **One message.** -/
theorem handle_fresh {docs : DocumentManager} {ev : Event Env} (h : Fresh host docs)
    (hrelint : Relints docs ev) : StepFresh host ev.message.uri (handle host docs ev) := by
  unfold handle
  rw [Relints] at hrelint
  cases hm : ev.message with
  | didOpen uri text version => exact onDidOpen_fresh h uri text version ev
  | didChange uri version changes =>
      rw [hm] at hrelint
      exact onDidChange_fresh h hrelint
  | didSave uri => exact lintAndPublish_fresh fun u doc _ hdoc => h u doc hdoc
  | didClose uri => exact onDidClose_fresh h uri
  | codeAction uri range => exact onCodeAction_fresh h uri range
  | hover uri position => exact onHover_fresh h uri position

/-! ## §4. Runs. -/

theorem run_fresh {evs : List (Event Env)} :
    ∀ {docs : DocumentManager}, Fresh host docs → RelintsAll host docs evs →
      FreshRun host docs evs := by
  induction evs with
  | nil =>
      intro docs _ _
      trivial
  | cons ev evs ih =>
      intro docs h hrun
      have hstep := handle_fresh h hrun.1
      exact ⟨hstep.2, ih hstep.1 hrun.2⟩

/-- **No stale fixes**, in every run whose steps all re-lint what they
change. -/
theorem server_fresh (host : Host Env) (evs : List (Event Env))
    (hrun : RelintsAll host DocumentManager.empty evs) :
    FreshRun host DocumentManager.empty evs := by
  refine run_fresh ?_ hrun
  intro uri doc hdoc
  cases hdoc

/-! ## §5. A run with a stale fix. -/

/-- A host whose lint offers to delete a leading `a`. -/
def leadingA : Host Unit where
  lint := fun _ _ contents =>
    if contents.head? = some 'a' then
      [⟨['r'], .warning, ⟨⟨1⟩, ⟨0, 1⟩⟩, ['m'],
        [⟨['d'], true, [⟨⟨⟨1⟩, ⟨0, 1⟩⟩, []⟩]⟩]⟩]
    else []
  pathOf := id

/-- Open `ab`, replace it by `xy` a second later, ask for code actions at the
start. -/
def debouncedChange : List (Event Unit) :=
  [⟨.didOpen ['u'] ['a', 'b'] 1, (), 1000000000, 1000000000, 1000000001⟩,
    ⟨.didChange ['u'] 2 [⟨false, 0, 0, 0, 0, ['x', 'y']⟩], (), 2000000000, 2000000001, 0⟩,
    ⟨.codeAction ['u'] ⟨⟨0, 0⟩, ⟨0, 0⟩⟩, (), 0, 0, 0⟩]

/-- The same run when the gate looks 150 ms after the change. -/
theorem server_fresh_slowGate :
    FreshRun leadingA DocumentManager.empty
      [⟨.didOpen ['u'] ['a', 'b'] 1, (), 1000000000, 1000000000, 1000000001⟩,
        ⟨.didChange ['u'] 2 [⟨false, 0, 0, 0, 0, ['x', 'y']⟩], (), 2000000000, 2150000000,
          2150000001⟩,
        ⟨.codeAction ['u'] ⟨⟨0, 0⟩, ⟨0, 0⟩⟩, (), 0, 0, 0⟩] :=
  server_fresh leadingA _
    ⟨trivial, fun _ _ => Or.inr ⟨rfl, Or.inr (by decide)⟩, trivial, trivial⟩

/-- **A stale fix**: the edit offered for `xy` deletes its first byte, the lint
of `xy` has nothing to say. -/
theorem debounced_change_stale : ¬ FreshRun leadingA DocumentManager.empty debouncedChange := by
  intro h
  have hout := h.2.2.1
  have hedit := hout (.codeActions [⟨['d'], "quickfix".toList,
    [⟨⟨⟨0, 0⟩, ⟨0, 1⟩⟩, 2, ['r'], "shader-clippy".toList, ['m']⟩], ['u'],
    [⟨⟨⟨0, 0⟩, ⟨0, 1⟩⟩, []⟩], true⟩]) (by exact List.mem_singleton.mpr rfl)
  have ⟨env, hrefers⟩ := hedit
  have ⟨diag, hdiag, _⟩ := (hrefers _ (List.mem_singleton.mpr rfl)).2 _ (List.mem_singleton.mpr rfl)
  cases hdiag

end ShaderClippy.Lsp
