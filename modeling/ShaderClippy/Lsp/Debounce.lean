/-
  ShaderClippy.Lsp.Debounce

  **THE DEBOUNCE GATE** (`should_debounce_lint`, as `on_did_change` uses it).

  The gate is to hold a lint back while a document is still being typed: a
  change that comes 150 ms or more after the one before is linted at once.
  A `Session` keeps, beside the server's documents, when each text was last
  set. The stored `last_change_time` is that time in every run
  (`run_timed`), so a gate that looked at it before the change is applied
  would decide as it should (`gate_before_change`). It looks afterwards,
  when `apply_changes` has stored the time of this very change: what counts
  is how long the handler takes to come to the gate (`debounceLaw_iff`).
-/
import ShaderClippy.Lsp.Server

namespace ShaderClippy.Lsp

variable {Env : Type} (host : Host Env)

/-! ## §1. Sessions. -/

/-- The open documents, and when the text of each was last set. -/
structure Session where
  docs : DocumentManager
  lastChange : Text → Option Nat

/-- A text is set by its `didOpen` and by every batch that is applied. -/
def changeTimes (docs : DocumentManager) (lastChange : Text → Option Nat) (ev : Event Env) :
    Text → Option Nat :=
  match ev.message with
  | .didOpen uri _ _ => Function.update lastChange uri (some ev.changedAt)
  | .didChange uri version changes =>
      if (docs.applyChanges uri version changes ev.changedAt).2 then
        Function.update lastChange uri (some ev.changedAt)
      else lastChange
  | .didClose uri => Function.update lastChange uri none
  | .didSave _ | .codeAction _ _ | .hover _ _ => lastChange

def Session.step (s : Session) (ev : Event Env) : Session :=
  ⟨(handle host s.docs ev).1, changeTimes s.docs s.lastChange ev⟩

def Session.run (evs : List (Event Env)) : Session :=
  evs.foldl (Session.step host) ⟨DocumentManager.empty, fun _ => none⟩

/-- The clock does not run backwards. -/
def Clocked (evs : List (Event Env)) : Prop :=
  (evs.flatMap fun ev => [ev.changedAt, ev.gateAt, ev.lintedAt]).Pairwise (· ≤ ·)

/-- A change that is applied, 150 ms or more after the one before. -/
structure DueChange (s : Session) (ev : Event Env) (uri : Text) (version : Int)
    (changes : List ContentChange) : Prop where
  received : ev.message = .didChange uri version changes
  applied : (s.docs.applyChanges uri version changes ev.changedAt).2 = true
  late : ∃ previous, s.lastChange uri = some previous ∧ previous + debounce ≤ ev.changedAt

/-- The new contents are linted by the same handler call. -/
def LintedAtOnce (s : Session) (ev : Event Env) (uri : Text) (version : Int)
    (changes : List ContentChange) : Prop :=
  handle host s.docs ev
    = lintAndPublish host (s.docs.applyChanges uri version changes ev.changedAt).1 uri ev

/-- The debounce law, for a run. -/
def DebounceLaw (evs : List (Event Env)) : Prop :=
  ∀ before ev after, evs = before ++ ev :: after → ∀ uri version changes,
    DueChange (Session.run host before) ev uri version changes →
      LintedAtOnce host (Session.run host before) ev uri version changes

/-! ## §2. The stored times. -/

/-- The documents carry the times of their last changes. -/
def Session.Timed (s : Session) : Prop :=
  ∀ uri, (s.docs.find uri).map OpenDocument.lastChangeTime = s.lastChange uri

variable {host}

/-- A lint touches no text and no time of change. -/
theorem lintAndPublish_lastChangeTime (docs : DocumentManager) (uri : Text) (ev : Event Env)
    (u : Text) :
    ((lintAndPublish host docs uri ev).1.find u).map OpenDocument.lastChangeTime
      = (docs.find u).map OpenDocument.lastChangeTime := by
  unfold lintAndPublish
  cases hdoc : docs.find uri with
  | none => rfl
  | some doc =>
      simp only [DocumentManager.markLinted, DocumentManager.find_set_self]
      by_cases hu : u = uri
      · rw [hu, DocumentManager.find_set_self, hdoc]
        rfl
      · rw [DocumentManager.find_set_ne _ _ hu, DocumentManager.find_set_ne _ _ hu]

/-- Only a batch that is applied sets the time, and only of its document. -/
theorem applyChanges_lastChangeTime (docs : DocumentManager) (uri : Text) (version : Int)
    (changes : List ContentChange) (now : Nat) (u : Text) :
    ((docs.applyChanges uri version changes now).1.find u).map OpenDocument.lastChangeTime
      = if u = uri ∧ (docs.applyChanges uri version changes now).2 = true then some now
        else (docs.find u).map OpenDocument.lastChangeTime := by
  cases hdoc : docs.find uri with
  | none =>
      have hsame : docs.applyChanges uri version changes now = (docs, false) := by
        rw [DocumentManager.applyChanges, hdoc]
      rw [hsame, if_neg (fun h => Bool.false_ne_true h.2)]
  | some doc =>
      rw [DocumentManager.applyChanges_open hdoc]
      by_cases hu : u = uri
      · rw [hu, DocumentManager.find_set_self, hdoc]
        cases (applyEach doc.contents changes).2 with
        | true => simp
        | false => simp
      · rw [DocumentManager.find_set_ne _ _ hu, if_neg (fun h => hu h.1)]

theorem timed_update {docs docs' : DocumentManager} {lastChange : Text → Option Nat}
    (h : Session.Timed ⟨docs, lastChange⟩) {uri : Text} {time : Option Nat}
    (hself : (docs'.find uri).map OpenDocument.lastChangeTime = time)
    (hother : ∀ u, u ≠ uri → docs'.find u = docs.find u) :
    Session.Timed ⟨docs', Function.update lastChange uri time⟩ := by
  intro u
  show (docs'.find u).map OpenDocument.lastChangeTime = Function.update lastChange uri time u
  by_cases hu : u = uri
  · rw [hu, Function.update_self]
    exact hself
  · rw [Function.update_of_ne hu, hother u hu]
    exact h u

theorem lintAndPublish_timed {docs : DocumentManager} {lastChange : Text → Option Nat}
    (h : Session.Timed ⟨docs, lastChange⟩) (uri : Text) (ev : Event Env) :
    Session.Timed ⟨(lintAndPublish host docs uri ev).1, lastChange⟩ :=
  fun u => (lintAndPublish_lastChangeTime docs uri ev u).trans (h u)

/-- The times belong to the documents behind a batch, applied or not. -/
theorem applyChanges_timed {docs : DocumentManager} {lastChange : Text → Option Nat}
    (h : Session.Timed ⟨docs, lastChange⟩) (uri : Text) (version : Int)
    (changes : List ContentChange) (now : Nat) :
    Session.Timed ⟨(docs.applyChanges uri version changes now).1,
      if (docs.applyChanges uri version changes now).2 then
        Function.update lastChange uri (some now) else lastChange⟩ := by
  intro u
  show _ = (if (docs.applyChanges uri version changes now).2 then _ else lastChange) u
  rw [applyChanges_lastChangeTime]
  cases (docs.applyChanges uri version changes now).2 with
  | false =>
      rw [if_neg (fun h => Bool.false_ne_true h.2)]
      exact h u
  | true =>
      by_cases hu : u = uri
      · rw [if_pos ⟨hu, rfl⟩, hu]
        exact (Function.update_self uri (some now) lastChange).symm
      · rw [if_neg (fun h => hu h.1), if_pos rfl, Function.update_of_ne hu]
        exact h u

/-- The gate decides about the lint alone. -/
theorem onDidChange_timed {docs : DocumentManager} {lastChange : Text → Option Nat}
    (h : Session.Timed ⟨docs, lastChange⟩) (uri : Text) (version : Int)
    (changes : List ContentChange) (ev : Event Env) :
    Session.Timed ⟨(onDidChange host docs uri version changes ev).1,
      if (docs.applyChanges uri version changes ev.changedAt).2 then
        Function.update lastChange uri (some ev.changedAt) else lastChange⟩ := by
  have happlied := applyChanges_timed h uri version changes ev.changedAt
  unfold onDidChange
  split
  next docs' hcall =>
      rw [hcall] at happlied ⊢
      exact happlied
  next docs' hcall =>
      rw [hcall] at happlied ⊢
      split
      · exact happlied
      · exact lintAndPublish_timed happlied uri ev

/-- **One message.** -/
theorem step_timed {s : Session} (h : s.Timed) (ev : Event Env) :
    (s.step host ev).Timed := by
  unfold Session.step handle changeTimes
  cases ev.message with
  | didOpen uri text version =>
      have hopen : Session.Timed
          ⟨s.docs.openDocument uri (host.pathOf uri) text version ev.changedAt,
            Function.update s.lastChange uri (some ev.changedAt)⟩ :=
        timed_update h (by rw [DocumentManager.openDocument, DocumentManager.find_set_self]; rfl)
          (fun u hu => DocumentManager.find_set_ne _ _ hu)
      exact lintAndPublish_timed hopen uri ev
  | didChange uri version changes => exact onDidChange_timed h uri version changes ev
  | didSave uri => exact lintAndPublish_timed h uri ev
  | didClose uri =>
      have hclosed : (s.docs.close uri).find uri = none := by
        rw [DocumentManager.close, DocumentManager.find_set_self]
      have hnone : ((s.docs.close uri).find uri).map OpenDocument.lastChangeTime = none := by
        rw [hclosed]
        rfl
      exact timed_update h hnone (fun u hu => DocumentManager.find_set_ne _ _ hu)
  | codeAction uri range => exact h
  | hover uri position => exact h

/-- **The stored times are those of the last changes**, in every run. -/
theorem run_timed (evs : List (Event Env)) : (Session.run host evs).Timed := by
  induction evs using List.reverseRecOn with
  | nil =>
      intro uri
      rfl
  | append_singleton evs ev ih =>
      have hsnoc : Session.run host (evs ++ [ev]) = (Session.run host evs).step host ev := by
        rw [Session.run, List.foldl_append]
        rfl
      rw [hsnoc]
      exact step_timed ih ev

/-! ## §3. The gate. -/

/-- The gate in front of the change: it holds back exactly the changes of
linted documents that are not due. -/
theorem gate_before_change (evs : List (Event Env)) {ev : Event Env} {uri : Text} {version : Int}
    {changes : List ContentChange} (hreceived : ev.message = .didChange uri version changes)
    (happlied : ((Session.run host evs).docs.applyChanges uri version changes ev.changedAt).2 = true)
    (hlinted : ∀ doc, (Session.run host evs).docs.find uri = some doc → doc.lastLintTime ≠ 0) :
    (Session.run host evs).docs.shouldDebounceLint uri debounce ev.changedAt = false
      ↔ DueChange (Session.run host evs) ev uri version changes := by
  have htimed := @run_timed _ host evs uri
  cases hdoc : (Session.run host evs).docs.find uri with
  | none =>
      rw [DocumentManager.applyChanges, hdoc] at happlied
      exact absurd happlied Bool.false_ne_true
  | some doc =>
      have htime : (Session.run host evs).lastChange uri = some doc.lastChangeTime := by
        rw [← htimed, hdoc]
        rfl
      have hpos : 0 < debounce := by decide
      rw [DocumentManager.shouldDebounceLint, hdoc]
      show (if doc.lastLintTime = 0 then false
        else decide (ev.changedAt - doc.lastChangeTime < debounce)) = false ↔ _
      rw [if_neg (hlinted doc hdoc), decide_eq_false_iff_not]
      constructor
      · intro hopen
        exact ⟨hreceived, happlied, doc.lastChangeTime, htime, by omega⟩
      · intro ⟨_, _, previous, hprevious, hlate⟩
        have hsame : doc.lastChangeTime = previous := Option.some.inj (htime.symm.trans hprevious)
        omega

/-- **A change is linted at once IF AND ONLY IF its document was never linted,
or the clock has gone on by 150 ms between the change and the gate.** -/
theorem lintedAtOnce_iff {s : Session} {ev : Event Env} {uri : Text} {version : Int}
    {changes : List ContentChange} (hreceived : ev.message = .didChange uri version changes)
    (happlied : (s.docs.applyChanges uri version changes ev.changedAt).2 = true) :
    LintedAtOnce host s ev uri version changes ↔
      (∀ doc, s.docs.find uri = some doc → doc.lastLintTime = 0)
        ∨ ev.changedAt + debounce ≤ ev.gateAt := by
  have hpos : 0 < debounce := by decide
  cases hdoc : s.docs.find uri with
  | none =>
      rw [DocumentManager.applyChanges, hdoc] at happlied
      exact absurd happlied Bool.false_ne_true
  | some doc =>
      rw [DocumentManager.applyChanges_open hdoc] at happlied
      have hall : (applyEach doc.contents changes).2 = true := happlied
      unfold LintedAtOnce handle
      rw [hreceived]
      simp only [onDidChange, DocumentManager.applyChanges_open hdoc, hall, if_true,
        DocumentManager.shouldDebounceLint, DocumentManager.find_set_self]
      by_cases hnever : doc.lastLintTime = 0
      · rw [if_pos hnever, if_neg Bool.false_ne_true]
        exact iff_of_true rfl (Or.inl fun d hd => by cases hd; exact hnever)
      · rw [if_neg hnever]
        by_cases hslow : ev.changedAt + debounce ≤ ev.gateAt
        · rw [decide_eq_false (by omega), if_neg Bool.false_ne_true]
          exact iff_of_true rfl (Or.inr hslow)
        · rw [decide_eq_true (show ev.gateAt - ev.changedAt < debounce by omega), if_pos rfl]
          refine iff_of_false (fun hsame => ?_) ?_
          · -- a lint publishes, the gate sends nothing
            rw [lintAndPublish, DocumentManager.find_set_self] at hsame
            exact absurd (congrArg Prod.snd hsame) nofun
          · rintro (hzero | hlate)
            · exact hnever (hzero doc rfl)
            · exact hslow hlate

variable (host)

/-- **The debounce law holds in a run IF AND ONLY IF every due change of the
run is about a document that was never linted, or comes to the gate 150 ms
after it was applied.** -/
theorem debounceLaw_iff (evs : List (Event Env)) :
    DebounceLaw host evs ↔
      ∀ before ev after, evs = before ++ ev :: after → ∀ uri version changes,
        DueChange (Session.run host before) ev uri version changes →
          (∀ doc, (Session.run host before).docs.find uri = some doc → doc.lastLintTime = 0)
            ∨ ev.changedAt + debounce ≤ ev.gateAt := by
  constructor
  · intro hlaw before ev after hsplit uri version changes hdue
    exact (lintedAtOnce_iff hdue.received hdue.applied).mp
      (hlaw before ev after hsplit uri version changes hdue)
  · intro hgate before ev after hsplit uri version changes hdue
    exact (lintedAtOnce_iff hdue.received hdue.applied).mpr
      (hgate before ev after hsplit uri version changes hdue)

/-- Open `a`, replace it by `b` 200 ms later; the gate looks at once. -/
def unhurriedTyping : List (Event Unit) :=
  [⟨.didOpen ['u'] ['a'] 1, (), 1000000000, 1000000000, 1000000001⟩,
    ⟨.didChange ['u'] 2 [⟨false, 0, 0, 0, 0, ['b']⟩], (), 1200000000, 1200000001, 1200000001⟩]

/-- **A due change that is not linted.** -/
theorem unhurriedTyping_unlinted :
    Clocked unhurriedTyping ∧ ¬ DebounceLaw ⟨fun _ _ _ => [], id⟩ unhurriedTyping := by
  refine ⟨by simp [Clocked, unhurriedTyping], fun hlaw => ?_⟩
  have hsent := hlaw [_] _ [] rfl ['u'] 2 _ ⟨rfl, rfl, 1000000000, rfl, by decide⟩
  exact absurd (congrArg (fun r => r.2.length) hsent) (by decide)

end ShaderClippy.Lsp
