/-
  ShaderClippy.Lsp.FramingStream

  **FRAMES IN SEQUENCE: ROUND TRIP AND RECOVERY.**

    • `readAll_frames` — frames written one after another are read back, body
      by body, whatever the bodies contain;
    • `recovers_iff` — what follows a frame that is rejected for its length.
      `read_message` leaves the rejected body in the stream, so the loop takes
      it for headers. It finds the next frame exactly when the body drains
      (`Drains`) down to a rest that the next frame's header absorbs.
-/
import Mathlib
import ShaderClippy.Lsp.Framing

namespace ShaderClippy.Lsp.Framing

/-! ## §1. What one read can do. -/

/-- The ways one read goes. -/
inductive Read : Text → ReadResult × Text → Prop
  | ended : Read [] (⟨.endOfStream, []⟩, [])
  | cutOff (stream : Text) : Read stream (⟨.headerError, []⟩, [])
  | overlong (stretch rest : Text) : Overlong stretch →
      Read (stretch ++ rest) (⟨.headerError, []⟩, rest)
  | rejected (block rest : Text) : HeaderBlock block →
      (∀ n, declaredLength block = some n → maxBodyBytes < n) →
      Read (block ++ rest) (⟨.headerError, []⟩, rest)
  | message (block body rest : Text) : HeaderBlock block →
      declaredLength block = some body.length → body.length ≤ maxBodyBytes →
      Read (block ++ (body ++ rest)) (⟨.ok, body⟩, rest)
  | truncated (stream body : Text) : Read stream (⟨.bodyTruncated, body⟩, [])

theorem readMessage_read (stream : Text) : Read stream (readMessage stream) := by
  have hscan := scanHeader_spec stream [] (by
    intro p hp hsuf
    rw [List.prefix_nil.mp hp] at hsuf
    simpa [headerTerminator] using hsuf.length_le) (Nat.zero_le _)
  rw [readMessage]
  cases hs : scanHeader [] stream with
  | streamEnded headers =>
      rw [hs] at hscan
      have hall : headers = stream := by simpa using hscan
      subst hall
      cases headers with
      | nil => exact Read.ended
      | cons c cs => exact Read.cutOff _
  | tooLong rest =>
      rw [hs] at hscan
      obtain ⟨stretch, hsplit, hover⟩ := hscan
      rw [List.nil_append] at hsplit
      rw [hsplit]
      exact Read.overlong stretch rest hover
  | found block rest =>
      rw [hs] at hscan
      obtain ⟨hsplit, hblock⟩ := hscan
      rw [List.nil_append] at hsplit
      subst hsplit
      have hdeclared : parseContentLength (block.take (block.length - headerTerminator.length))
          = declaredLength block := rfl
      dsimp only
      rw [hdeclared]
      cases hd : declaredLength block with
      | none => exact Read.rejected block rest hblock (by simp [hd])
      | some n =>
          simp only
          split
          case isTrue hcap =>
              refine Read.rejected block rest hblock ?_
              intro m hm
              rw [hd] at hm
              cases hm
              exact hcap
          case isFalse hcap =>
              split
              case isTrue _ => exact Read.truncated _ _
              case isFalse hfits =>
                  have hlen : (rest.take n).length = n := by
                    rw [List.length_take]
                    exact Nat.min_eq_left (Nat.not_lt.mp hfits)
                  have hbody := Read.message block (rest.take n) (rest.drop n) hblock
                    (by rw [hlen]; exact hd) (by rw [hlen]; exact Nat.not_lt.mp hcap)
                  rwa [List.take_append_drop] at hbody

theorem block_ne_nil {block : Text} (h : HeaderBlock block) : block ≠ [] := by
  intro heq
  have hlen := h.ends.length_le
  rw [heq] at hlen
  simp [headerTerminator] at hlen

theorem overlong_ne_nil {stretch : Text} (h : Overlong stretch) : stretch ≠ [] := by
  intro heq
  have hlen := h.long
  rw [heq] at hlen
  cases hlen

/-! ## §2. Round trip. -/

def readAll (stream : Text) : List ReadResult := readLoop (stream.length + 1) stream

theorem readLoop_frames (bodies : List Text) (hcap : ∀ b ∈ bodies, b.length ≤ maxBodyBytes) :
    ∀ fuel, bodies.length < fuel →
      readLoop fuel (bodies.flatMap frameMessage)
        = bodies.map (fun b => ⟨.ok, b⟩) ++ [⟨.endOfStream, []⟩] := by
  induction bodies with
  | nil =>
      intro fuel hfuel
      cases fuel with
      | zero => omega
      | succ n => rfl
  | cons b bs ih =>
      intro fuel hfuel
      cases fuel with
      | zero => omega
      | succ n =>
          have hread := readMessage_frame (bs.flatMap frameMessage)
            (hcap b (List.mem_cons_self ..))
          have hrest := ih (fun x hx => hcap x (List.mem_cons_of_mem _ hx)) n
            (by simp only [List.length_cons] at hfuel; omega)
          rw [List.flatMap_cons, readLoop, hread]
          simp only [List.map_cons, List.cons_append, hrest]
          rfl

theorem length_le_frames (bodies : List Text) :
    bodies.length ≤ (bodies.flatMap frameMessage).length := by
  induction bodies with
  | nil => simp
  | cons b bs ih =>
      have hone : 1 ≤ (frameMessage b).length := by
        simp only [frameMessage, frameHeader, contentLength, List.length_append, List.length_cons]
        omega
      rw [List.flatMap_cons, List.length_append, List.length_cons]
      omega

/-- **Framing round trip.** -/
theorem readAll_frames (bodies : List Text) (hcap : ∀ b ∈ bodies, b.length ≤ maxBodyBytes) :
    readAll (bodies.flatMap frameMessage)
      = bodies.map (fun b => ⟨.ok, b⟩) ++ [⟨.endOfStream, []⟩] := by
  have hlen := length_le_frames bodies
  exact readLoop_frames bodies hcap _ (by omega)

/-- A body that looks like a header, and an empty one. -/
theorem readAll_frames_headerLike :
    readAll ([headerTerminator ++ contentLength, []].flatMap frameMessage)
      = [⟨.ok, headerTerminator ++ contentLength⟩, ⟨.ok, []⟩, ⟨.endOfStream, []⟩] :=
  readAll_frames [headerTerminator ++ contentLength, []] (by decide)

/-! ## §3. Calls of the read loop. -/

/-- The streams the read loop calls `read_message` on. -/
inductive Reaches : Text → Text → Prop
  | here (stream : Text) : Reaches stream stream
  | next {stream later : Text} : (readMessage stream).1.status ≠ .endOfStream →
      Reaches (readMessage stream).2 later → Reaches stream later

/-- The loop reads each of the frames: one of its calls returns the body and
leaves the stream right behind that frame. -/
def ReadsFrames (stream : Text) (bodies : List Text) : Prop :=
  ∀ pre body post, bodies = pre ++ body :: post →
    ∃ s, Reaches stream s ∧ readMessage s = (⟨.ok, body⟩, post.flatMap frameMessage)

theorem Reaches.step {stream later : Text} {r : ReadResult × Text} (hr : readMessage stream = r)
    (hend : r.1.status ≠ .endOfStream) (h : Reaches r.2 later) : Reaches stream later :=
  Reaches.next (by rw [hr]; exact hend) (by rw [hr]; exact h)

theorem Reaches.trans {a b c : Text} (hab : Reaches a b) (hbc : Reaches b c) : Reaches a c := by
  induction hab with
  | here _ => exact hbc
  | next hend _ ih => exact Reaches.next hend (ih hbc)

/-- The loop moves forward. -/
theorem Read.suffix {stream : Text} {r : ReadResult × Text} (h : Read stream r) :
    r.2 <:+ stream := by
  cases h with
  | ended => exact List.suffix_rfl
  | cutOff => exact List.nil_suffix
  | overlong stretch rest _ => exact List.suffix_append _ _
  | rejected block rest _ _ => exact List.suffix_append _ _
  | message block body rest _ _ _ =>
      exact (List.suffix_append _ _).trans (List.suffix_append _ _)
  | truncated => exact List.nil_suffix

theorem Reaches.suffix {stream later : Text} (h : Reaches stream later) : later <:+ stream := by
  induction h with
  | here _ => exact List.suffix_rfl
  | next _ _ ih => exact ih.trans (readMessage_read _).suffix

/-- Well-formed frames are all read. -/
theorem readsFrames_frames {bodies : List Text} (hcap : ∀ b ∈ bodies, b.length ≤ maxBodyBytes) :
    ReadsFrames (bodies.flatMap frameMessage) bodies := by
  induction bodies with
  | nil =>
      intro pre body post h
      simp at h
  | cons b bs ih =>
      intro pre body post h
      have hread := readMessage_frame (bs.flatMap frameMessage)
        (hcap b (List.mem_cons_self ..))
      cases pre with
      | nil =>
          cases h
          exact ⟨_, Reaches.here _, hread⟩
      | cons p pre =>
          have ⟨_, hbs⟩ := List.cons.inj h
          have ⟨s, hs, hbody⟩ :=
            ih (fun x hx => hcap x (List.mem_cons_of_mem _ hx)) pre body post hbs
          exact ⟨s, Reaches.step hread (by simp) hs, hbody⟩

/-! ## §4. Draining a rejected body. -/

/-- The read loop eats `body` down to `rest`, piece by piece: a stretch that is
too long for a header, a header block that is rejected, or a header block with
the body it declares. -/
inductive Drains : Text → Text → Prop
  | done (rest : Text) : Drains rest rest
  | overlong {stretch body rest : Text} : Overlong stretch → Drains body rest →
      Drains (stretch ++ body) rest
  | rejected {block body rest : Text} : HeaderBlock block →
      (∀ n, declaredLength block = some n → maxBodyBytes < n) → Drains body rest →
      Drains (block ++ body) rest
  | message {block inner body rest : Text} : HeaderBlock block →
      declaredLength block = some inner.length → inner.length ≤ maxBodyBytes →
      Drains body rest → Drains (block ++ (inner ++ body)) rest

/-- The rest of the rejected body and the first frame's header are together
one header block that declares the length of the first frame's body. -/
def Absorbs (rest first : Text) : Prop :=
  HeaderBlock (rest ++ frameHeader first.length)
    ∧ declaredLength (rest ++ frameHeader first.length) = some first.length

theorem Drains.reaches {body rest : Text} (h : Drains body rest) (after : Text) :
    Reaches (body ++ after) (rest ++ after) := by
  induction h with
  | done _ => exact Reaches.here _
  | overlong hover _ ih =>
      rw [List.append_assoc]
      exact Reaches.step (readMessage_overlong hover) (by simp) ih
  | rejected hblock hdecl _ ih =>
      rw [List.append_assoc]
      exact Reaches.step (readMessage_rejected _ hblock hdecl) (by simp) ih
  | message hblock hdecl hcap _ ih =>
      rw [List.append_assoc, List.append_assoc]
      exact Reaches.step (readMessage_ok _ hblock hdecl hcap) (by simp) ih

/-- A piece at the front of `body ++ after` lies in `body`, or the rest is
shorter than `after`. -/
theorem piece_split {piece rest body after : Text} (h : piece ++ rest = body ++ after) :
    (∃ body', body = piece ++ body' ∧ rest = body' ++ after) ∨ rest.length < after.length := by
  rcases List.append_eq_append_iff.mp h with ⟨a, ha, hb⟩ | ⟨c, hc, hd⟩
  · exact Or.inl ⟨a, ha, hb⟩
  · cases c with
    | nil =>
        left
        refine ⟨[], ?_, ?_⟩
        · rw [hc]
          simp
        · rw [hd]
          rfl
    | cons x xs =>
        right
        rw [hd]
        simp only [List.length_append, List.length_cons]
        omega

/-- Where the loop can stand, once it has started on `body ++ after`: in a
part of `body` that `body` drains to, or past the first byte of `after`. -/
theorem Reaches.drains {stream later : Text} (h : Reaches stream later) :
    ∀ {body after : Text}, after ≠ [] → stream = body ++ after →
      (∃ rest, Drains body rest ∧ later = rest ++ after) ∨ later.length < after.length := by
  induction h with
  | here s =>
      intro body after _ heq
      exact Or.inl ⟨body, Drains.done body, heq⟩
  | @next s later hend hreach ih =>
      intro body after hafter heq
      -- behind the end of `body` the loop does not come back
      have hpast : (readMessage s).2.length < after.length → later.length < after.length :=
        fun hlt => Nat.lt_of_le_of_lt hreach.suffix.length_le hlt
      have hread := readMessage_read s
      generalize readMessage s = r at *
      cases hread with
      | ended => exact absurd rfl hend
      | cutOff => exact Or.inr (hpast (List.length_pos_iff.mpr hafter))
      | overlong stretch rest hover =>
          rcases piece_split heq with ⟨body', hbody, hrest⟩ | hlt
          · rcases ih hafter hrest with ⟨t, ht, hl⟩ | hlt
            · exact Or.inl ⟨t, hbody ▸ Drains.overlong hover ht, hl⟩
            · exact Or.inr hlt
          · exact Or.inr (hpast hlt)
      | rejected block rest hblock hdecl =>
          rcases piece_split heq with ⟨body', hbody, hrest⟩ | hlt
          · rcases ih hafter hrest with ⟨t, ht, hl⟩ | hlt
            · exact Or.inl ⟨t, hbody ▸ Drains.rejected hblock hdecl ht, hl⟩
            · exact Or.inr hlt
          · exact Or.inr (hpast hlt)
      | message block inner rest hblock hdecl hcap =>
          rw [← List.append_assoc] at heq
          rcases piece_split heq with ⟨body', hbody, hrest⟩ | hlt
          · rcases ih hafter hrest with ⟨t, ht, hl⟩ | hlt
            · rw [List.append_assoc] at hbody
              exact Or.inl ⟨t, hbody ▸ Drains.message hblock hdecl hcap ht, hl⟩
            · exact Or.inr hlt
          · exact Or.inr (hpast hlt)
      | truncated stream inner => exact Or.inr (hpast (List.length_pos_iff.mpr hafter))

/-! ## §5. What follows a rejected frame. -/

theorem asciiIequals_length {a b : Text} (h : asciiIequals a b = true) : a.length = b.length := by
  have heq : a.map Char.toLower = b.map Char.toLower := by simpa [asciiIequals] using h
  simpa using congrArg List.length heq

theorem length_trim_le (s : Text) : (trim s).length ≤ s.length :=
  (List.rdropWhile_prefix _ _).length_le.trans (List.dropWhile_suffix _).length_le

/-- A line whose name is too short to be `Content-Length` declares nothing. -/
theorem parseContentLength_short {line : Text} (hcr : '\r' ∉ line)
    (hname : (line.takeWhile (· != ':')).length < contentLength.length ∨ ':' ∉ line) :
    parseContentLength line = none := by
  cases line with
  | nil => rfl
  | cons c cs =>
      have hcut := cutLine_unbroken hcr
      have hfield : parseField none (c :: cs) = none ∨ parseField none (c :: cs) = some none := by
        by_cases hcolon : ':' ∈ c :: cs
        · right
          have hshort : asciiIequals (trim ((c :: cs).takeWhile (· != ':'))) contentLength
              = false := by
            by_contra hne
            have hlen := asciiIequals_length (by simpa using hne)
            have hle := length_trim_le ((c :: cs).takeWhile (· != ':'))
            rcases hname with h | h
            · omega
            · exact h hcolon
          have hcontains : (c :: cs).contains ':' = true := List.contains_iff_mem.mpr hcolon
          simp only [parseField, List.isEmpty_cons, hcontains, hshort, Bool.not_true,
            Bool.false_eq_true, if_false]
        · left
          have hcontains : (c :: cs).contains ':' = false := by
            by_contra hne
            exact hcolon (List.contains_iff_mem.mp ((Bool.not_eq_false _).mp hne))
          simp only [parseField, List.isEmpty_cons, hcontains, Bool.not_false, Bool.false_eq_true,
            if_false, if_true]
      rw [parseContentLength, parseFields]
      simp only [List.isEmpty_cons, Bool.false_eq_true, if_false, hcut]
      rcases hfield with h | h
      · rw [h]
      · rw [h]
        rfl

/-- **A part of a frame's header declares nothing**: the name is cut. -/
theorem declaredLength_part {size : Nat} {front block : Text}
    (h : frameHeader size = front ++ block) (hfront : front ≠ [])
    (hends : headerTerminator <:+ block) : declaredLength block = none := by
  have ⟨line, hline⟩ := hends
  -- the block is the end of the field, then the terminator
  have hfield : frameField size = front ++ line := by
    rw [frameHeader_eq, ← hline, ← List.append_assoc] at h
    exact List.append_cancel_right h
  have htake : block.take (block.length - headerTerminator.length) = line := by
    rw [← hline, List.length_append, Nat.add_sub_cancel, List.take_left]
  rw [declaredLength, htake]
  have hcr : '\r' ∉ line := by
    intro hmem
    exact (frameField_unbroken size).1 (by rw [hfield]; exact List.mem_append_right _ hmem)
  apply parseContentLength_short hcr
  have hpos : 0 < front.length := List.length_pos_iff.mpr hfront
  rw [frameField, List.append_assoc] at hfield
  rcases List.append_eq_append_iff.mp hfield with ⟨a, ha, hb⟩ | ⟨a, ha, hb⟩
  · -- the whole name is in front: no colon, or an empty name
    cases a with
    | nil =>
        left
        rw [List.nil_append] at hb
        rw [← hb]
        simp [contentLength]
    | cons c cs =>
        right
        intro hmem
        rw [List.cons_append] at hb
        have hrest : ' ' :: Nat.toDigits 10 size = cs ++ line := by
          simpa using (List.cons.inj hb).2
        have hcolon : ':' ∈ ' ' :: Nat.toDigits 10 size := by
          rw [hrest]
          exact List.mem_append_right _ hmem
        rcases List.mem_cons.mp hcolon with hsp | hdig
        · exact absurd hsp (by decide)
        · exact (digit_ne hdig).2.2.1 rfl
  · -- a part of the name is left
    left
    have hno : ':' ∉ a := by
      intro hmem
      have : ':' ∈ contentLength := by
        rw [ha]
        exact List.mem_append_right _ hmem
      exact absurd this (by decide)
    have hname : line.takeWhile (· != ':') = a := by
      rw [hb, List.takeWhile_append_of_pos]
      · simp
      · intro c hc
        have hne : c ≠ ':' := fun heq => hno (heq ▸ hc)
        simpa using hne
    have hlen := congrArg List.length ha
    rw [List.length_append] at hlen
    rw [hname]
    omega

theorem frames_cons (first : Text) (others : List Text) :
    (first :: others).flatMap frameMessage
      = frameHeader first.length ++ (first ++ others.flatMap frameMessage) := by
  rw [List.flatMap_cons, frameMessage, List.append_assoc]

theorem frameHeader_ne_nil (n : Nat) : frameHeader n ≠ [] := by
  rw [frameHeader_eq]
  simp [headerTerminator]

/-- A call that starts behind the first byte of a frame reads no body of it: in
the rest of the header it finds no length. -/
theorem not_read_inside {s block first tail : Text} (hblock : HeaderBlock block)
    (hlen : declaredLength block = some first.length) (hs : s = block ++ (first ++ tail)) :
    ¬ (s <:+ frameHeader first.length ++ (first ++ tail)
      ∧ s.length < (frameHeader first.length ++ (first ++ tail)).length) := by
  intro ⟨⟨front, hfront⟩, hshort⟩
  have hpart : frameHeader first.length = front ++ block := by
    rw [hs, ← List.append_assoc] at hfront
    exact (List.append_cancel_right hfront).symm
  have hne : front ≠ [] := by
    intro h
    rw [h, List.nil_append] at hfront
    rw [hfront] at hshort
    exact Nat.lt_irrefl _ hshort
  rw [declaredLength_part hpart hne hblock.ends] at hlen
  cases hlen

/-- What reads the frame behind a rejected one absorbs what is left of the body. -/
theorem absorbs_of_readsFrames {head body first : Text} {others : List Text}
    (hskip : readMessage (head ++ (body ++ (first :: others).flatMap frameMessage))
      = (⟨.headerError, []⟩, body ++ (first :: others).flatMap frameMessage))
    (hreads : ReadsFrames (head ++ (body ++ (first :: others).flatMap frameMessage))
      (first :: others)) :
    ∃ rest, Drains body rest ∧ Absorbs rest first := by
  have ⟨s, hs, hread⟩ := hreads [] first others rfl
  -- the call that reads the first frame
  have ⟨block, hsplit, hblock, hlen⟩ : ∃ block, s = block ++ (first ++
      others.flatMap frameMessage) ∧ HeaderBlock block
        ∧ declaredLength block = some first.length := by
    have hr := readMessage_read s
    rw [hread] at hr
    cases hr with
    | message block _ _ hblock hlen _ => exact ⟨block, rfl, hblock, hlen⟩
  have hnonempty : (first :: others).flatMap frameMessage ≠ [] := by
    rw [frames_cons]
    simp [frameHeader_ne_nil]
  have hbehind : (∃ rest, Drains body rest ∧ s = rest ++ (first :: others).flatMap frameMessage)
      ∨ s.length < ((first :: others).flatMap frameMessage).length := by
    cases hs with
    | here _ =>
        -- not the rejected frame's own header
        rw [hskip] at hread
        cases hread
    | next _ hlater =>
        rw [hskip] at hlater
        exact hlater.drains hnonempty rfl
  rcases hbehind with ⟨rest, hdrains, heq⟩ | hshort
  · refine ⟨rest, hdrains, ?_⟩
    have hwhole : block = rest ++ frameHeader first.length := by
      rw [hsplit, frames_cons, ← List.append_assoc rest] at heq
      exact List.append_cancel_right heq
    rw [Absorbs, ← hwhole]
    exact ⟨hblock, hlen⟩
  · exfalso
    have hsuf : s <:+ (first :: others).flatMap frameMessage := by
      have hall := hs.suffix
      rw [← List.append_assoc] at hall
      exact List.suffix_of_suffix_length_le hall (List.suffix_append _ _) (Nat.le_of_lt hshort)
    rw [frames_cons] at hsuf hshort
    exact not_read_inside hblock hlen hsplit ⟨hsuf, hshort⟩

/-- A rest that the next frame absorbs loses none of the frames. -/
theorem readsFrames_of_absorbs {head body first rest : Text} {others : List Text}
    (hskip : readMessage (head ++ (body ++ (first :: others).flatMap frameMessage))
      = (⟨.headerError, []⟩, body ++ (first :: others).flatMap frameMessage))
    (hcap : ∀ b ∈ first :: others, b.length ≤ maxBodyBytes) (hdrains : Drains body rest)
    (habsorbs : Absorbs rest first) :
    ReadsFrames (head ++ (body ++ (first :: others).flatMap frameMessage)) (first :: others) := by
  obtain ⟨hblock, hlen⟩ := habsorbs
  have hdrained := hdrains.reaches ((first :: others).flatMap frameMessage)
  have hread := readMessage_ok (others.flatMap frameMessage) hblock hlen
    (hcap first (List.mem_cons_self ..))
  rw [List.append_assoc, ← frames_cons] at hread
  have hothers := readsFrames_frames fun b hb => hcap b (List.mem_cons_of_mem _ hb)
  have hheader := frameHeader_ne_nil first.length
  intro pre b post hbodies
  cases pre with
  | nil =>
      cases hbodies
      exact ⟨_, Reaches.step hskip (by simp) hdrained, hread⟩
  | cons p pre =>
      have ⟨_, hbs⟩ := List.cons.inj hbodies
      have ⟨s, hs, hbody⟩ := hothers pre b post hbs
      have hcalls := hdrained.trans (Reaches.step hread (by simp) hs)
      exact ⟨s, Reaches.step hskip (by simp) hcalls, hbody⟩

/-- **Recovery after a rejected frame.**  A header block declares the length of
the body behind it, and that is over the cap. The frames that follow are all
read, at their own places, exactly when the body drains to a rest that the
first of them absorbs. -/
theorem recovers_iff {head body first : Text} {others : List Text} (hhead : HeaderBlock head)
    (hdecl : declaredLength head = some body.length) (hover : maxBodyBytes < body.length)
    (hcap : ∀ b ∈ first :: others, b.length ≤ maxBodyBytes) :
    ReadsFrames (head ++ (body ++ (first :: others).flatMap frameMessage)) (first :: others)
      ↔ ∃ rest, Drains body rest ∧ Absorbs rest first := by
  have hreject : ∀ n, declaredLength head = some n → maxBodyBytes < n := by
    intro n hn
    rw [hdecl] at hn
    cases hn
    exact hover
  have hskip := readMessage_rejected (body ++ (first :: others).flatMap frameMessage)
    hhead hreject
  constructor
  · exact absorbs_of_readsFrames hskip
  · intro ⟨rest, hdrains, habsorbs⟩
    exact readsFrames_of_absorbs hskip hcap hdrains habsorbs

/-! ## §6. Rejected bodies without a line end. -/

theorem unbroken_open {s : Text} (h : '\r' ∉ s) : ∀ p, p <+: s → ¬ headerTerminator <:+ p := by
  intro p hp hsuf
  have hmem : '\r' ∈ p := hsuf.subset (by decide)
  exact h (hp.subset hmem)

theorem not_mem_replicate_a (n : Nat) : '\r' ∉ List.replicate n 'a' := by
  intro h
  exact absurd (List.eq_of_mem_replicate h) (by decide)

theorem overlong_replicate : Overlong (List.replicate (maxHeaderBytes + 1) 'a') :=
  ⟨unbroken_open (not_mem_replicate_a _), List.length_replicate⟩

/-- Whole stretches of 65537 bytes drain completely. -/
theorem drains_replicate (k : Nat) :
    Drains (List.replicate ((maxHeaderBytes + 1) * k) 'a') [] := by
  induction k with
  | zero => exact Drains.done []
  | succ k ih =>
      rw [Nat.mul_succ, Nat.add_comm, List.replicate_add]
      exact Drains.overlong overlong_replicate ih

/-- Nothing else drains: what is left is a multiple of 65537 bytes shorter. -/
theorem drains_replicate_inv {body rest : Text} (h : Drains body rest) :
    ∀ n, body = List.replicate n 'a' →
      ∃ m, rest = List.replicate m 'a' ∧ m % (maxHeaderBytes + 1) = n % (maxHeaderBytes + 1) := by
  have hnone : ∀ {block tail : Text} {n : Nat}, HeaderBlock block →
      block ++ tail = List.replicate n 'a' → False := by
    intro block tail n hblock heq
    have hmem : '\r' ∈ block ++ tail :=
      List.mem_append_left _ (hblock.ends.subset (by decide))
    rw [heq] at hmem
    exact not_mem_replicate_a n hmem
  induction h with
  | done rest =>
      intro n hn
      exact ⟨n, hn, rfl⟩
  | @overlong stretch body rest hover _ ih =>
      intro n hn
      have hsize := congrArg List.length hn
      rw [List.length_append, hover.long, List.length_replicate] at hsize
      have htail : body = List.replicate (n - (maxHeaderBytes + 1)) 'a' := by
        have hdrop := congrArg (List.drop stretch.length) hn
        rwa [List.drop_left, List.drop_replicate, hover.long] at hdrop
      have ⟨m, hm, hmod⟩ := ih _ htail
      refine ⟨m, hm, hmod.trans ?_⟩
      rw [← hsize, Nat.add_sub_cancel_left, Nat.add_mod_left]
  | rejected hblock _ _ _ =>
      intro n hn
      exact absurd hn (hnone hblock)
  | message hblock _ _ _ _ =>
      intro n hn
      exact absurd hn (hnone hblock)

/-- 256 stretches: the next frame is read. -/
theorem recovers_iff_stretches :
    ReadsFrames (frameHeader (List.replicate ((maxHeaderBytes + 1) * 256) 'a').length
      ++ (List.replicate ((maxHeaderBytes + 1) * 256) 'a'
        ++ [['{', '}']].flatMap frameMessage)) [['{', '}']] :=
  have hsize : (List.replicate ((maxHeaderBytes + 1) * 256) 'a').length < 2 ^ 32 := by
    rw [List.length_replicate]
    decide
  (recovers_iff (headerBlock_frameHeader _ hsize) (declaredLength_frameHeader hsize)
    (by rw [List.length_replicate]; decide) (by decide)).mpr
    ⟨[], drains_replicate 256, headerBlock_frameHeader 2 (by decide),
      declaredLength_frameHeader (by decide)⟩

/-- One byte more, and the next frame is lost: no read of the loop returns a
message. -/
theorem rejected_frame_loses_next :
    (∀ s, Reaches (frameHeader (List.replicate ((maxHeaderBytes + 1) * 256 + 1) 'a').length
        ++ (List.replicate ((maxHeaderBytes + 1) * 256 + 1) 'a' ++ frameMessage ['{', '}'])) s →
          (readMessage s).1.status ≠ .ok)
      ∧ ¬ ReadsFrames (frameHeader (List.replicate ((maxHeaderBytes + 1) * 256 + 1) 'a').length
        ++ (List.replicate ((maxHeaderBytes + 1) * 256 + 1) 'a'
          ++ [['{', '}']].flatMap frameMessage)) [['{', '}']] := by
  have hsize : (List.replicate ((maxHeaderBytes + 1) * 256 + 1) 'a').length < 2 ^ 32 := by
    rw [List.length_replicate]
    decide
  have hskip : ∀ rest,
      readMessage (frameHeader (List.replicate ((maxHeaderBytes + 1) * 256 + 1) 'a').length ++ rest)
        = (⟨.headerError, []⟩, rest) := by
    intro rest
    apply readMessage_rejected _ (headerBlock_frameHeader _ hsize)
    intro n hn
    rw [declaredLength_frameHeader hsize] at hn
    cases hn
    rw [List.length_replicate]
    decide
  have hparts : ∀ s ∈ (frameMessage ['{', '}']).tails,
      s.length < (frameMessage ['{', '}']).length → (readMessage s).1.status ≠ .ok := by
    decide
  have hnone : ∀ s,
      Reaches (frameHeader (List.replicate ((maxHeaderBytes + 1) * 256 + 1) 'a').length
        ++ (List.replicate ((maxHeaderBytes + 1) * 256 + 1) 'a' ++ frameMessage ['{', '}'])) s →
          (readMessage s).1.status ≠ .ok := by
    intro s hs
    cases hs with
    | here _ =>
        rw [hskip]
        decide
    | next _ hlater =>
        rw [hskip] at hlater
        rcases hlater.drains (by decide) rfl with ⟨rest, hdrains, heq⟩ | hshort
        · obtain ⟨m, hrest, hmod⟩ := drains_replicate_inv hdrains _ rfl
          subst hrest
          rw [heq]
          by_cases hm : m ≤ maxHeaderBytes
          · -- a single byte is left, and spoils the next header
            have hone : m = 1 := by
              rw [maxHeaderBytes] at hm hmod
              omega
            subst hone
            decide
          · -- still a stretch that is too long
            have hsplit : m = (maxHeaderBytes + 1) + (m - (maxHeaderBytes + 1)) := by omega
            rw [hsplit, List.replicate_add, List.append_assoc,
              readMessage_overlong overlong_replicate]
            simp
        · have hsuf : s <:+ frameMessage ['{', '}'] :=
            List.suffix_of_suffix_length_le hlater.suffix (List.suffix_append _ _)
              (Nat.le_of_lt hshort)
          exact hparts s ((List.mem_tails _ _).mpr hsuf) hshort
  refine ⟨hnone, ?_⟩
  intro hreads
  obtain ⟨s, hs, hread⟩ := hreads [] ['{', '}'] [] rfl
  rw [List.flatMap_cons, List.flatMap_nil, List.append_nil] at hs
  exact hnone s hs (by rw [hread])

end ShaderClippy.Lsp.Framing
