/-
  ShaderClippy.Lsp.DocumentSync

  **INCREMENTAL DOCUMENT SYNC.**

  The client holds every open document as a buffer of lines and sends, batch
  after batch, replacements between two positions of the text left by the edit
  before, or whole new texts. The server holds bytes. One edit keeps the two
  texts equal (`applyOne_sync`), so one batch does (`applyChanges_sync`), so
  every run of batches does (`documents_sync`).

  Lines end with a line feed, as everywhere in the program; in a CR LF
  document the CR is the last character of its line. The text is ASCII, one
  byte and one UTF-16 unit per character.
-/
import ShaderClippy.Lsp.DocumentManager

namespace ShaderClippy.Lsp

open Lines

/-! ## §1. The client. -/

/-- One edit of the client's text. -/
inductive Edit where
  | full (text : Text)
  | range (start stop : Position) (text : Text)

/-- A text as the client holds it. -/
abbrev ClientText := Buffer '\n'

/-- Positions of the client's current text, the start not after the end. -/
def Edit.Valid (b : ClientText) : Edit → Prop
  | .full _ => True
  | .range start stop _ => b.Valid start ∧ b.Valid stop ∧ start.Le stop

/-- The client's own text after its edit. -/
def Edit.apply (b : ClientText) : Edit → ClientText
  | .full text => Buffer.ofText '\n' text
  | .range start stop text => b.replace start stop text

/-- The edit as it goes over the wire. -/
def Edit.toChange : Edit → ContentChange
  | .full text => ⟨false, 0, 0, 0, 0, text⟩
  | .range start stop text =>
      ⟨true, start.line, start.character, stop.line, stop.character, text⟩

/-- Every edit is valid in the text left by the one before. -/
def EditsValid : ClientText → List Edit → Prop
  | _, [] => True
  | b, e :: es => e.Valid b ∧ EditsValid (e.apply b) es

/-- One `didChange` notification, and when it arrives. -/
structure Batch where
  uri : Text
  version : Int
  edits : List Edit
  now : Nat

/-- The client's open documents. -/
abbrev Client := Text → Option ClientText

/-- The client applies a batch to its own text. -/
def Client.step (client : Client) (batch : Batch) : Client := fun u =>
  if u = batch.uri then (client batch.uri).map fun b => batch.edits.foldl Edit.apply b
  else client u

/-- The client sends batches for open documents, with valid edits. -/
def Client.Sends (client : Client) (batch : Batch) : Prop :=
  ∃ b, client batch.uri = some b ∧ EditsValid b batch.edits

def Client.run (client : Client) (batches : List Batch) : Client := batches.foldl Client.step client

/-- Every batch of the run is one the client may send. -/
def Client.SendsAll : Client → List Batch → Prop
  | _, [] => True
  | client, batch :: batches => client.Sends batch ∧ (client.step batch).SendsAll batches

/-! ## §2. The server. -/

/-- The server applies a batch. -/
def DocumentManager.step (docs : DocumentManager) (batch : Batch) : DocumentManager :=
  (docs.applyChanges batch.uri batch.version (batch.edits.map Edit.toChange) batch.now).1

def DocumentManager.run (docs : DocumentManager) (batches : List Batch) : DocumentManager :=
  batches.foldl DocumentManager.step docs

/-- Client and server hold the same texts under the same URIs. -/
def InSync (docs : DocumentManager) (client : Client) : Prop :=
  ∀ uri, (docs.find uri).map OpenDocument.contents = (client uri).map Buffer.text

/-! ## §3. One edit, one batch, a run. -/

/-- A valid position is found at the length of the text to its left. -/
theorem positionToOffset_before {b : ClientText} {p : Position} (h : b.Valid p) :
    positionToOffset b.text p.line p.character = some (b.before p).length := by
  have ⟨w, s, hbefore, hw, hline, hs, hchar⟩ := Buffer.before_spec h
  rw [← Buffer.before_append_after h, hbefore, ← hline, ← hchar]
  exact positionToOffset_spec _ hw hs

theorem applyOne_sync {b : ClientText} {e : Edit} (h : e.Valid b) :
    applyOne b.text e.toChange = ((e.apply b).text, true) := by
  cases e with
  | full text => simp [applyOne, Edit.toChange, Edit.apply]
  | range start stop text =>
      have ⟨hstart, hstop, hle⟩ := h
      have hlo := positionToOffset_before hstart
      have hhi := positionToOffset_before hstop
      have hord : ¬ (b.before start).length > (b.before stop).length :=
        Nat.not_lt.mpr (Buffer.length_before_le hstart hstop hle)
      have htake : b.text.take (b.before start).length = b.before start := by
        rw [← Buffer.before_append_after hstart, List.take_left]
      have hdrop : b.text.drop (b.before stop).length = b.after stop := by
        rw [← Buffer.before_append_after hstop, List.drop_left]
      show applyOne b.text ⟨true, _, _, _, _, text⟩ = ((b.replace start stop text).text, true)
      simp only [applyOne, Bool.not_true, Bool.false_eq_true, if_false, hlo, hhi, if_neg hord,
        htake, hdrop, Buffer.text_replace]

theorem applyEach_sync {es : List Edit} :
    ∀ {b : ClientText}, EditsValid b es →
      applyEach b.text (es.map Edit.toChange) = ((es.foldl Edit.apply b).text, true) := by
  induction es with
  | nil =>
      intro b _
      rfl
  | cons e es ih =>
      intro b h
      rw [List.map_cons, applyEach, applyOne_sync h.1]
      exact ih h.2

/-- **One batch**: it succeeds and keeps the texts equal. -/
theorem applyChanges_sync {docs : DocumentManager} {client : Client} {batch : Batch}
    (hsync : InSync docs client) (hsend : client.Sends batch) :
    (docs.applyChanges batch.uri batch.version (batch.edits.map Edit.toChange) batch.now).2 = true
      ∧ InSync (docs.step batch) (client.step batch) := by
  have ⟨b, hb, hvalid⟩ := hsend
  have huri := hsync batch.uri
  rw [hb] at huri
  cases hdoc : docs.find batch.uri with
  | none =>
      rw [hdoc] at huri
      cases huri
  | some doc =>
      rw [hdoc] at huri
      have hcontents : doc.contents = b.text := Option.some.inj huri
      have happly : docs.applyChanges batch.uri batch.version (batch.edits.map Edit.toChange)
          batch.now = (docs.set batch.uri (some { doc with
            contents := (batch.edits.foldl Edit.apply b).text, version := batch.version,
            lastChangeTime := batch.now }), true) := by
        rw [DocumentManager.applyChanges, hdoc]
        simp only [hcontents, applyEach_sync hvalid]
      refine ⟨by rw [happly], ?_⟩
      intro u
      rw [DocumentManager.step, happly]
      by_cases hu : u = batch.uri
      · subst hu
        simp [Client.step, hb]
      · rw [DocumentManager.find_set_ne docs _ hu, hsync u]
        simp [Client.step, hu]

/-- **A run of batches**: after each of them the server holds the client's
texts. -/
theorem documents_sync (batches : List Batch) :
    ∀ (docs : DocumentManager) (client : Client), InSync docs client → client.SendsAll batches →
      ∀ k ≤ batches.length, InSync (docs.run (batches.take k)) (client.run (batches.take k)) := by
  induction batches with
  | nil =>
      intro docs client hsync _ k _
      simpa [DocumentManager.run, Client.run] using hsync
  | cons batch batches ih =>
      intro docs client hsync hsend k hk
      cases k with
      | zero => simpa [DocumentManager.run, Client.run] using hsync
      | succ k =>
          have hstep := (applyChanges_sync hsync hsend.1).2
          exact ih _ _ hstep hsend.2 k (by simpa using hk)

/-- **Incremental document sync**: a document is opened with some text, batches
of valid edits follow, and after each of them the stored contents are the
client's text. -/
theorem openDocument_sync (docs : DocumentManager) (client : Client) (hsync : InSync docs client)
    (uri path text : Text) (version : Int) (now : Nat) (batches : List Batch)
    (hsend : Client.SendsAll
      (fun u => if u = uri then some (Buffer.ofText '\n' text) else client u) batches) :
    ∀ k ≤ batches.length, ∀ u,
      (((docs.openDocument uri path text version now).run (batches.take k)).find u).map
          OpenDocument.contents
        = (Client.run (fun u => if u = uri then some (Buffer.ofText '\n' text) else client u)
            (batches.take k) u).map Buffer.text := by
  have hopen : InSync (docs.openDocument uri path text version now)
      (fun u => if u = uri then some (Buffer.ofText '\n' text) else client u) := by
    intro u
    by_cases hu : u = uri
    · simp [DocumentManager.openDocument, hu]
    · rw [DocumentManager.openDocument, DocumentManager.find_set_ne docs _ hu, hsync u]
      simp [hu]
  exact documents_sync batches _ _ hopen hsend

/-- Two edits in one batch: the second is placed in the text the first
leaves. -/
theorem openDocument_sync_twoEdits :
    (((DocumentManager.empty.openDocument ['u'] ['p'] ['a', '\n', 'b'] 1 0).run
        [⟨['u'], 2, [.range ⟨0, 1⟩ ⟨1, 0⟩ ['x', '\n', 'y'], .range ⟨1, 2⟩ ⟨1, 2⟩ ['z']], 7⟩]).find
          ['u']).map OpenDocument.contents = some ['a', 'x', '\n', 'y', 'b', 'z'] := by
  have hrun := openDocument_sync DocumentManager.empty (fun _ => none) (fun _ => rfl) ['u'] ['p']
    ['a', '\n', 'b'] 1 0
    [⟨['u'], 2, [.range ⟨0, 1⟩ ⟨1, 0⟩ ['x', '\n', 'y'], .range ⟨1, 2⟩ ⟨1, 2⟩ ['z']], 7⟩]
    ⟨⟨_, rfl, ⟨⟨_, rfl, by decide⟩, ⟨_, rfl, by decide⟩, Or.inl (by decide)⟩,
      ⟨⟨_, rfl, by decide⟩, ⟨_, rfl, by decide⟩, Or.inr ⟨rfl, by decide⟩⟩, trivial⟩, trivial⟩
    1 (by decide) ['u']
  exact hrun

end ShaderClippy.Lsp
