/-
  ShaderClippy.Lsp.DocumentManager

  **THE OPEN DOCUMENTS OF THE LANGUAGE SERVER** (`document/manager.cpp`).

  Documents are kept by URI. A `didChange` batch is applied edit by edit to
  the stored contents; a batch that fails half-way keeps the edits before the
  failing one, so the call is atomic only where these change nothing
  (`applyChanges_atomic_iff`). Clock readings are arguments:
  `steady_clock::now()` is `now`, the default `time_point{}` is `0`.

  Lines and characters arrive as 32-bit numbers and are counted up from zero
  until they match, so no counter passes 2³² and plain naturals stand for
  them.
-/
import ShaderClippy.Diagnostic
import ShaderClippy.Lib.Lines

namespace ShaderClippy.Lsp

open Lines

/-! ## §1. Positions. -/

/-- The scan of `line_start_offset`: the offset after the line break that
reaches the target, or the number of the last line. -/
def lineStartScan (targetLine : Nat) : Text → Nat → Nat → Nat ⊕ Nat
  | [], _, currentLine => .inr currentLine
  | c :: cs, i, currentLine =>
      if c = '\n' then
        if currentLine + 1 = targetLine then .inl (i + 1)
        else lineStartScan targetLine cs (i + 1) (currentLine + 1)
      else lineStartScan targetLine cs (i + 1) currentLine

/-- `line_start_offset`. -/
def lineStartOffset (contents : Text) (targetLine : Nat) : Option Nat :=
  if targetLine = 0 then some 0
  else
    match lineStartScan targetLine contents 0 0 with
    | .inl offset => some offset
    | .inr currentLine =>
        if currentLine = targetLine then some contents.length
        else if currentLine + 1 = targetLine then some contents.length
        else none

/-- The walk of `position_to_offset`: at most `character` bytes, not past a
line break. -/
def walkCharacters : Text → Nat → Nat → Nat
  | c :: cs, character + 1, offset =>
      if c = '\n' then offset else walkCharacters cs character (offset + 1)
  | _, _, offset => offset

/-- `DocumentManager::position_to_offset`. -/
def positionToOffset (contents : Text) (line character : Nat) : Option Nat :=
  match lineStartOffset contents line with
  | none => none
  | some base =>
      if base + character > contents.length then none
      else some (walkCharacters (contents.drop base) character base)

/-! ## §2. Documents. -/

/-- One change record of a `didChange` notification. -/
structure ContentChange where
  hasRange : Bool
  startLine : Nat
  startCharacter : Nat
  endLine : Nat
  endCharacter : Nat
  text : Text
  deriving Repr, DecidableEq

/-- One open document. -/
structure OpenDocument where
  uri : Text
  path : Text
  contents : Text
  version : Int
  latestDiagnostics : List Diagnostic
  lastChangeTime : Nat
  lastLintTime : Nat
  deriving Repr, DecidableEq

/-- `docs_`: the open documents by URI. -/
abbrev DocumentManager := Text → Option OpenDocument

/-- `apply_one`: the new contents and whether the change fits. -/
def applyOne (contents : Text) (change : ContentChange) : Text × Bool :=
  if !change.hasRange then (change.text, true)
  else
    match positionToOffset contents change.startLine change.startCharacter,
        positionToOffset contents change.endLine change.endCharacter with
    | some lo, some hi =>
        if lo > hi then (contents, false)
        else (contents.take lo ++ change.text ++ contents.drop hi, true)
    | _, _ => (contents, false)

/-- The loop of `apply_changes`: it stops at the first change that fails. -/
def applyEach : Text → List ContentChange → Text × Bool
  | contents, [] => (contents, true)
  | contents, change :: changes =>
      match applyOne contents change with
      | (contents', true) => applyEach contents' changes
      | (contents', false) => (contents', false)

namespace DocumentManager

/-- No open documents. -/
def empty : DocumentManager := fun _ => none

def find (docs : DocumentManager) (uri : Text) : Option OpenDocument := docs uri

/-- Store a document under its URI, or remove it. -/
def set (docs : DocumentManager) (uri : Text) (doc : Option OpenDocument) : DocumentManager :=
  fun u => if u = uri then doc else docs u

/-- `open`: replaces any entry under the same URI. -/
def openDocument (docs : DocumentManager) (uri path contents : Text) (version : Int) (now : Nat) :
    DocumentManager :=
  docs.set uri (some ⟨uri, path, contents, version, [], now, 0⟩)

/-- `close`. -/
def close (docs : DocumentManager) (uri : Text) : DocumentManager := docs.set uri none

/-- `apply_changes`. -/
def applyChanges (docs : DocumentManager) (uri : Text) (newVersion : Int)
    (changes : List ContentChange) (now : Nat) : DocumentManager × Bool :=
  match docs.find uri with
  | none => (docs, false)
  | some doc =>
      match applyEach doc.contents changes with
      | (contents, false) => (docs.set uri (some { doc with contents := contents }), false)
      | (contents, true) =>
          (docs.set uri (some { doc with
            contents := contents, version := newVersion, lastChangeTime := now }), true)

/-- `should_debounce_lint`. -/
def shouldDebounceLint (docs : DocumentManager) (uri : Text) (debounce now : Nat) : Bool :=
  match docs.find uri with
  | none => false
  | some doc =>
      if doc.lastLintTime = 0 then false else decide (now - doc.lastChangeTime < debounce)

/-- `mark_linted`. -/
def markLinted (docs : DocumentManager) (uri : Text) (now : Nat) : DocumentManager :=
  match docs.find uri with
  | none => docs
  | some doc => docs.set uri (some { doc with lastLintTime := now })

@[simp] theorem find_set_self (docs : DocumentManager) (uri : Text) (doc : Option OpenDocument) :
    (docs.set uri doc).find uri = doc := by
  simp [find, set]

@[simp] theorem find_set_ne (docs : DocumentManager) {uri u : Text} (doc : Option OpenDocument)
    (h : u ≠ uri) : (docs.set uri doc).find u = docs.find u := by
  simp [find, set, h]

end DocumentManager

/-! ## §3. What the position scan finds. -/

/-- The scan stops behind whole lines that hold the breaks still missing. -/
theorem lineStartScan_whole {target : Nat} (s rest : Text) :
    ∀ {i current : Nat}, current + (s.count '\n' + 1) = target →
      lineStartScan target (s ++ '\n' :: rest) i current = .inl (i + s.length + 1) := by
  induction s with
  | nil =>
      intro i current h
      have hnext : current + 1 = target := by simpa using h
      simp [lineStartScan, hnext]
  | cons c cs ih =>
      intro i current h
      have hoff : i + 1 + cs.length + 1 = i + (c :: cs).length + 1 := by
        simp only [List.length_cons]
        omega
      by_cases hc : c = '\n'
      · -- not the last break yet: more of them follow
        rw [List.count_cons, if_pos (by simpa using hc)] at h
        rw [List.cons_append, lineStartScan, if_pos hc, if_neg (by omega), ih (by omega), hoff]
      · rw [List.count_cons, if_neg (by simpa using hc)] at h
        rw [List.cons_append, lineStartScan, if_neg hc, ih (by omega), hoff]

theorem lineStartOffset_whole {w : Text} (rest : Text) (hw : Whole '\n' w) :
    lineStartOffset (w ++ rest) (w.count '\n') = some w.length := by
  rcases hw with rfl | ⟨s, rfl⟩
  · simp [lineStartOffset]
  · have hscan := lineStartScan_whole s rest (i := 0)
      (show 0 + (s.count '\n' + 1) = s.count '\n' + 1 by omega)
    have hcount : (s ++ ['\n']).count '\n' = s.count '\n' + 1 := by simp
    rw [lineStartOffset, hcount, if_neg (by omega), List.append_assoc, List.singleton_append,
      hscan]
    simp

theorem walkCharacters_unbroken {s rest : Text} (hs : '\n' ∉ s) :
    ∀ {offset : Nat}, walkCharacters (s ++ rest) s.length offset = offset + s.length := by
  induction s with
  | nil =>
      intro offset
      cases rest <;> rfl
  | cons c cs ih =>
      intro offset
      rw [List.mem_cons, not_or] at hs
      rw [List.cons_append, List.length_cons, walkCharacters, if_neg (Ne.symm hs.1), ih hs.2]
      omega

/-- **What `position_to_offset` finds**: behind whole lines and part of a
line, the position that counts those lines and that part. -/
theorem positionToOffset_spec {w s : Text} (rest : Text) (hw : Whole '\n' w) (hs : '\n' ∉ s) :
    positionToOffset (w ++ s ++ rest) (w.count '\n') s.length = some (w ++ s).length := by
  have hstart := lineStartOffset_whole (s ++ rest) hw
  have hfits : ¬ w.length + s.length > (w ++ (s ++ rest)).length := by
    simp only [List.length_append]
    omega
  rw [List.append_assoc, positionToOffset, hstart]
  show (if w.length + s.length > (w ++ (s ++ rest)).length then none
    else some (walkCharacters ((w ++ (s ++ rest)).drop w.length) s.length w.length)) = _
  rw [if_neg hfits, List.drop_left, walkCharacters_unbroken hs, List.length_append]

/-! ## §4. A batch that fails. -/

/-- A change that does not fit leaves the text as it is. -/
theorem applyOne_false {contents text : Text} {change : ContentChange}
    (h : applyOne contents change = (text, false)) : text = contents := by
  unfold applyOne at h
  split at h
  · exact absurd h nofun
  · split at h
    · split at h
      · exact (congrArg Prod.fst h).symm
      · exact absurd h nofun
    · exact (congrArg Prod.fst h).symm

/-- A batch that fails splits at its first change that does not fit, and the
text it leaves is that of the changes before. -/
theorem applyEach_eq_false_iff {text : Text} {changes : List ContentChange} :
    ∀ {contents : Text}, applyEach contents changes = (text, false) ↔
      ∃ pre bad post, changes = pre ++ bad :: post ∧ applyEach contents pre = (text, true)
        ∧ (applyOne text bad).2 = false := by
  induction changes with
  | nil =>
      intro contents
      constructor
      · intro h
        exact absurd h nofun
      · intro ⟨pre, bad, post, hsplit, _⟩
        exact absurd hsplit.symm (by simp)
  | cons change changes ih =>
      intro contents
      cases hone : applyOne contents change with
      | mk contents' fits =>
          cases fits with
          | true =>
              rw [applyEach, hone]
              show applyEach contents' changes = (text, false) ↔ _
              rw [ih]
              constructor
              · intro ⟨pre, bad, post, hsplit, hpre, hbad⟩
                refine ⟨change :: pre, bad, post, by rw [hsplit]; rfl, ?_, hbad⟩
                rw [applyEach, hone]
                exact hpre
              · intro ⟨pre, bad, post, hsplit, hpre, hbad⟩
                cases pre with
                | nil =>
                    -- the first change fits, so it is not the one that fails
                    cases hsplit
                    cases hpre
                    rw [hone] at hbad
                    exact absurd hbad nofun
                | cons first pre =>
                    cases hsplit
                    rw [applyEach, hone] at hpre
                    exact ⟨pre, bad, post, rfl, hpre, hbad⟩
          | false =>
              have hsame : contents' = contents := applyOne_false hone
              rw [applyEach, hone]
              show (contents', false) = (text, false) ↔ _
              constructor
              · intro h
                have htext : contents' = text := congrArg Prod.fst h
                refine ⟨[], change, changes, rfl, ?_, ?_⟩
                · rw [applyEach, ← htext, hsame]
                · rw [← htext, hsame, hone]
              · intro ⟨pre, bad, post, hsplit, hpre, _⟩
                cases pre with
                | nil =>
                    have htext : contents = text := congrArg Prod.fst hpre
                    rw [hsame, htext]
                | cons first pre =>
                    cases hsplit
                    rw [applyEach, hone] at hpre
                    exact absurd hpre nofun

namespace DocumentManager

/-- Storing what is stored changes nothing. -/
theorem set_find (docs : DocumentManager) (uri : Text) : docs.set uri (docs.find uri) = docs := by
  funext u
  unfold set find
  split
  next h => rw [h]
  next => rfl

/-- A call that answers `false` leaves every document as it was. -/
def Atomic (docs : DocumentManager) (uri : Text) (newVersion : Int) (changes : List ContentChange)
    (now : Nat) : Prop :=
  (docs.applyChanges uri newVersion changes now).2 = false →
    (docs.applyChanges uri newVersion changes now).1 = docs

/-- What a call does to an open document. -/
theorem applyChanges_open {docs : DocumentManager} {uri : Text} {doc : OpenDocument}
    (hdoc : docs.find uri = some doc) (newVersion : Int) (changes : List ContentChange) (now : Nat) :
    docs.applyChanges uri newVersion changes now
      = (docs.set uri (some (if (applyEach doc.contents changes).2 then
            { doc with contents := (applyEach doc.contents changes).1
                       version := newVersion
                       lastChangeTime := now }
          else { doc with contents := (applyEach doc.contents changes).1 })),
        (applyEach doc.contents changes).2) := by
  unfold applyChanges
  rw [hdoc]
  cases hall : applyEach doc.contents changes with
  | mk text fits =>
      cases fits with
      | true => simp only [hall, if_true]
      | false => simp only [hall, Bool.false_eq_true, if_false]

/-- **`apply_changes` is atomic IF AND ONLY IF the changes before the first
one that does not fit leave the text as it is.** -/
theorem applyChanges_atomic_iff (docs : DocumentManager) (uri : Text) (newVersion : Int)
    (changes : List ContentChange) (now : Nat) :
    docs.Atomic uri newVersion changes now ↔
      ∀ doc, docs.find uri = some doc → ∀ pre bad post text, changes = pre ++ bad :: post →
        applyEach doc.contents pre = (text, true) → (applyOne text bad).2 = false →
          text = doc.contents := by
  unfold Atomic
  cases hdoc : docs.find uri with
  | none =>
      have hsame : docs.applyChanges uri newVersion changes now = (docs, false) := by
        unfold applyChanges
        rw [hdoc]
      rw [hsame]
      exact ⟨fun _ _ h => absurd h nofun, fun _ _ => rfl⟩
  | some doc =>
      rw [applyChanges_open hdoc]
      constructor
      · intro hatomic doc' hdoc' pre bad post text hsplit hpre hbad
        cases hdoc'
        have hfail : applyEach doc.contents changes = (text, false) :=
          applyEach_eq_false_iff.mpr ⟨pre, bad, post, hsplit, hpre, hbad⟩
        rw [hfail] at hatomic
        have hset : (docs.set uri _).find uri = docs.find uri :=
          congrArg (fun d : DocumentManager => d.find uri) (hatomic rfl)
        rw [find_set_self, hdoc] at hset
        exact congrArg OpenDocument.contents (Option.some.inj hset)
      · intro hkeep hfalse
        cases hfail : applyEach doc.contents changes with
        | mk text fits =>
            rw [hfail] at hfalse
            have hfits : fits = false := hfalse
            subst hfits
            obtain ⟨pre, bad, post, hsplit, hpre, hbad⟩ := applyEach_eq_false_iff.mp hfail
            have htext := hkeep doc rfl pre bad post text hsplit hpre hbad
            have hstored : docs.set uri (some doc) = docs := by
              rw [← hdoc]
              exact set_find docs uri
            rw [htext]
            exact hstored

/-- `ab`: the first change deletes the `a`, the second one is about line 5. -/
def deleteThenMiss : List ContentChange :=
  [⟨true, 0, 0, 0, 1, []⟩, ⟨true, 5, 0, 5, 0, "x".toList⟩]

/-- **A batch that fails half-way**: the call answers `false`, and the text is
`b` under the old version. -/
theorem deleteThenMiss_half_applied :
    let docs := empty.openDocument ['u'] ['p'] "ab".toList 1 7
    (docs.applyChanges ['u'] 2 deleteThenMiss 8).2 = false
      ∧ (docs.applyChanges ['u'] 2 deleteThenMiss 8).1.find ['u']
          = some ⟨['u'], ['p'], "b".toList, 1, [], 7, 0⟩
      ∧ ¬ docs.Atomic ['u'] 2 deleteThenMiss 8 := by
  refine ⟨by decide, by decide, fun hatomic => ?_⟩
  have hfind := congrArg (fun d : DocumentManager => d.find ['u']) (hatomic (by decide))
  exact absurd hfind (by decide)

end DocumentManager

end ShaderClippy.Lsp
