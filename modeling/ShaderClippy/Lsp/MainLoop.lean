/-
  ShaderClippy.Lsp.MainLoop

  **THE SERVER PROCESS** (`main.cpp` of the language server).

  The process reads bytes and writes bytes. It skips what it cannot read and stops at
  the end of the stream, after `exit`, or with an exception. So it is a session over the
  frames that can be read (`runServer_serve`), for any stream of bytes.

  A client that writes frames and reads frames sees the session itself: the bodies the
  server has sent come out as they were sent, the replies among them answer the messages
  in order, one each, and the exit code is 0 if `shutdown` was asked for
  (`runServer_session`).
-/
import ShaderClippy.Lsp.FramingStream
import ShaderClippy.Lsp.Session

namespace ShaderClippy.Lsp

open Framing (ReadResult FramingStatus readMessage readLoop readAll frameMessage maxBodyBytes)

variable {Ext κ : Type}

/-! ## §1. The loop. -/

/-- `write_framed`, for all that is written. -/
def writeFramed (sent : List (Json × Text)) : Text := sent.flatMap fun p => frameMessage p.2

/-- How the process ends. -/
structure Ended where
  state : ServerState
  out : Text
  crashed : Bool

/-- The loop of `run_server`: the number of messages so far, the server, the stream and
what was written. -/
def runLoop (lib : JsonLib) (o : Outside Ext κ) (turns : Nat → Turn Ext) :
    Nat → Nat → ServerState → Text → Text → Ended
  | 0, _, s, _, out => ⟨s, out, false⟩
  | fuel + 1, i, s, stream, out =>
      if s.shouldExit then ⟨s, out, false⟩
      else
        let r := readMessage stream
        match r.1.status with
        | .endOfStream => ⟨s, out, false⟩
        | .ok =>
            let reaction := react lib o (turns i) s r.1.body
            if reaction.crashed then ⟨reaction.state, out ++ writeFramed reaction.sent, true⟩
            else runLoop lib o turns fuel (i + 1) reaction.state r.2 (out ++ writeFramed reaction.sent)
        | _ => runLoop lib o turns fuel i s r.2 out

/-- `run_server`. Every read but the last takes a byte off the stream. -/
def runServer (lib : JsonLib) (o : Outside Ext κ) (turns : Nat → Turn Ext) (stream : Text) : Ended :=
  runLoop lib o turns (stream.length + 1) 0 .initial stream []

/-- What `main` returns. -/
def Ended.exitCode (e : Ended) : Nat := if e.crashed then 1 else if e.state.shutdownRequested then 0 else 1

/-! ## §2. The bodies that are read. -/

/-- The bodies among the results. -/
def okBodies (results : List ReadResult) : List Text :=
  results.filterMap fun r => if r.status = .ok then some r.body else none

theorem okBodies_skip {r : ReadResult} {results : List ReadResult} (h : r.status ≠ .ok) :
    okBodies (r :: results) = okBodies results := by
  unfold okBodies
  exact List.filterMap_cons_none (if_neg h)

/-- A read that is not the end takes something off. -/
theorem readMessage_shorter {stream : Text} (h : (readMessage stream).1.status ≠ .endOfStream) :
    (readMessage stream).2.length < stream.length := by
  have hpos : 0 < stream.length := by
    cases stream with
    | nil => exact absurd rfl h
    | cons => exact Nat.succ_pos _
  have hread := Framing.readMessage_read stream
  generalize readMessage stream = r at h hread
  cases hread with
  | ended => exact absurd rfl h
  | cutOff => exact hpos
  | truncated => exact hpos
  | overlong stretch rest hover =>
      have hlen := List.length_pos_iff.mpr (Framing.overlong_ne_nil hover)
      simp only [List.length_append]
      omega
  | rejected block rest hblock =>
      have hlen := List.length_pos_iff.mpr (Framing.block_ne_nil hblock)
      simp only [List.length_append]
      omega
  | message block body rest hblock =>
      have hlen := List.length_pos_iff.mpr (Framing.block_ne_nil hblock)
      simp only [List.length_append]
      omega

/-- As long as bytes are left to count with, the loop reads on to the end. -/
theorem readLoop_fuel {stream : Text} {fuel : Nat} (h : stream.length < fuel) :
    readLoop fuel stream = readAll stream := by
  have hstep : ∀ {n : Nat} {stream : Text}, stream.length < n → readLoop (n + 1) stream = readLoop n stream := by
    intro n
    induction n with
    | zero => exact fun h => absurd h (Nat.not_lt_zero _)
    | succ n ih =>
        intro stream h
        have hcons : ∀ m, readLoop (m + 1) stream = if (readMessage stream).1.status = .endOfStream then
            [(readMessage stream).1] else (readMessage stream).1 :: readLoop m (readMessage stream).2 := fun _ => rfl
        rw [hcons (n + 1), hcons n]
        by_cases hend : (readMessage stream).1.status = .endOfStream
        · rw [if_pos hend, if_pos hend]
        · have hless := readMessage_shorter hend
          rw [if_neg hend, if_neg hend, ih (by omega)]
  obtain ⟨k, rfl⟩ : ∃ k, fuel = stream.length + 1 + k := ⟨fuel - (stream.length + 1), by omega⟩
  clear h
  induction k with
  | zero => rfl
  | succ k ih =>
      rw [← Nat.add_assoc, hstep (by omega)]
      exact ih

/-- The loop over the stream is the session over the bodies it reads. -/
theorem runLoop_serve (lib : JsonLib) (o : Outside Ext κ) (turns : Nat → Turn Ext) :
    ∀ {fuel i : Nat} {s : ServerState} {stream out : Text},
      runLoop lib o turns fuel i s stream out
        = ⟨(serve lib o turns i (okBodies (readLoop fuel stream)) s).state,
            out ++ writeFramed (serve lib o turns i (okBodies (readLoop fuel stream)) s).sent,
            (serve lib o turns i (okBodies (readLoop fuel stream)) s).crashed⟩ := by
  intro fuel
  induction fuel with
  | zero => exact fun {i s stream out} => by simp [runLoop, readLoop, okBodies, serve, writeFramed]
  | succ fuel ih =>
      intro i s stream out
      rw [runLoop]
      cases hexit : s.shouldExit with
      | true =>
          rw [serve_exited hexit]
          simp [writeFramed]
      | false =>
          rw [if_neg Bool.false_ne_true, readLoop]
          dsimp only
          cases hstatus : (readMessage stream).1.status with
          | endOfStream => simp [okBodies, hstatus, serve, writeFramed]
          | ok =>
              have hbodies : okBodies ((readMessage stream).1 :: readLoop fuel (readMessage stream).2)
                  = (readMessage stream).1.body :: okBodies (readLoop fuel (readMessage stream).2) := by
                unfold okBodies
                exact List.filterMap_cons_some (if_pos hstatus)
              have hmore : FramingStatus.ok ≠ .endOfStream := by decide
              rw [if_neg hmore, hbodies]
              dsimp only
              cases hcrashed : (react lib o (turns i) s (readMessage stream).1.body).crashed with
              | true => rw [if_pos rfl, serve_crashed hexit hcrashed, hcrashed]
              | false =>
                  rw [if_neg Bool.false_ne_true, serve_next hexit hcrashed, ih]
                  simp [writeFramed, List.append_assoc]
          | headerError =>
              have hmore : FramingStatus.headerError ≠ .endOfStream := by decide
              rw [if_neg hmore, okBodies_skip (by rw [hstatus]; decide)]
              exact ih
          | bodyTruncated =>
              have hmore : FramingStatus.bodyTruncated ≠ .endOfStream := by decide
              rw [if_neg hmore, okBodies_skip (by rw [hstatus]; decide)]
              exact ih

/-! ## §3. The process. -/

/-- **The process is a session** over the frames that can be read in the stream. -/
theorem runServer_serve (lib : JsonLib) (o : Outside Ext κ) (turns : Nat → Turn Ext) (stream : Text) :
    runServer lib o turns stream
      = ⟨(serve lib o turns 0 (okBodies (readAll stream)) .initial).state,
          writeFramed (serve lib o turns 0 (okBodies (readAll stream)) .initial).sent,
          (serve lib o turns 0 (okBodies (readAll stream)) .initial).crashed⟩ := runLoop_serve lib o turns

/-- The loop ends by itself: turns to spare are not used. -/
theorem runLoop_fuel (lib : JsonLib) (o : Outside Ext κ) (turns : Nat → Turn Ext) {stream : Text} {fuel : Nat}
    (h : stream.length < fuel) : runLoop lib o turns fuel 0 .initial stream [] = runServer lib o turns stream := by
  rw [runLoop_serve, readLoop_fuel h, runServer_serve]
  rfl

/-- The bodies of frames. -/
theorem okBodies_frames {bodies : List Text} (hcap : ∀ b ∈ bodies, b.length ≤ maxBodyBytes) :
    okBodies (readAll (bodies.flatMap frameMessage)) = bodies := by
  have hlen := Framing.length_le_frames bodies
  have hread : readAll (bodies.flatMap frameMessage) = bodies.map (fun b => ⟨.ok, b⟩) ++ [⟨.endOfStream, []⟩] :=
    Framing.readLoop_frames bodies hcap _ (by omega)
  rw [hread, okBodies, List.filterMap_append, List.filterMap_map]
  have hall : bodies.filterMap ((fun r : ReadResult => if r.status = .ok then some r.body else none)
      ∘ fun b => ⟨.ok, b⟩) = bodies := by
    rw [show ((fun r : ReadResult => if r.status = .ok then some r.body else none) ∘ fun b => ⟨.ok, b⟩) = some from rfl,
      List.filterMap_some]
  rw [hall]
  exact List.append_nil _

/-- What a client sees that has written the bodies as frames, when the process has sent
these envelopes and texts. -/
structure Serves (lib : JsonLib) (bodies : List Text) (e : Ended) (sent : List (Json × Text)) : Prop where
  dumped : ∀ p ∈ sent, lib.dump p.1 = some p.2
  out : e.out = sent.flatMap fun p => frameMessage p.2
  readBack : (∀ p ∈ sent, p.2.length ≤ maxBodyBytes) → okBodies (readAll e.out) = sent.map Prod.snd
  answered : sent.filterMap (fun p => p.1.idValue) <+: (served lib bodies).filterMap (answerId lib)
  all : e.crashed = false → sent.filterMap (fun p => p.1.idValue) = (served lib bodies).filterMap (answerId lib)
  code : e.exitCode = 0 ↔
    e.crashed = false ∧ ∃ body ∈ served lib bodies, requestMethod lib body = some kShutdown

/-- **A session over frames.**  Let a client write messages as frames. What the process
writes reads as frames again, and their bodies are what the server has sent, each the
text of its envelope. The replies among them answer the messages up to the first
`exit`, one each and in their order, all of them unless an exception ended the program.
The exit code is 0 if none did and `shutdown` was asked for. -/
theorem runServer_session (lib : JsonLib) (hdump : ∀ j, lib.dump j ≠ some []) (o : Outside Ext κ)
    (turns : Nat → Turn Ext) {bodies : List Text} (hcap : ∀ b ∈ bodies, b.length ≤ maxBodyBytes) :
    ∃ sent, Serves lib bodies (runServer lib o turns (bodies.flatMap frameMessage)) sent := by
  rw [runServer_serve, okBodies_frames hcap]
  have hstart : ServerState.initial.shouldExit = false := rfl
  obtain ⟨hpre, hall⟩ := serve_replies hdump hstart
  refine ⟨_, serve_sent_dump, rfl, ?_, hpre, hall, ?_⟩
  · intro hsmall
    have hframes : writeFramed (serve lib o turns 0 bodies .initial).sent
        = ((serve lib o turns 0 bodies .initial).sent.map Prod.snd).flatMap frameMessage := by
      rw [writeFramed, List.flatMap_map]
    dsimp only
    rw [hframes]
    refine okBodies_frames fun b hb => ?_
    obtain ⟨p, hp, rfl⟩ := List.mem_map.mp hb
    exact hsmall p hp
  · exact (serve_exitCode hstart).trans (and_congr_right fun _ => or_iff_right Bool.false_ne_true)

/-- A request for `shutdown`, and `exit`. -/
def shutdownBody : Text := "\x7b\"id\":7,\"method\":\"shutdown\"\x7d".toList

def exitBody : Text := "\x7b\"method\":\"exit\"\x7d".toList

/-- What the JSON library does with these two, and with the reply. -/
def shutdownLib : JsonLib where
  parse text :=
    if text = shutdownBody then .ok (.object [(kId, .unsigned 7), (kMethod, .string kShutdown)])
    else if text = exitBody then .ok (.object [(kMethod, .string kExit)])
    else .error .parseError
  dump j := if j.valid then some "\x7b\"id\":7,\"jsonrpc\":\"2.0\",\"result\":null\x7d".toList else none
  parse_valid := by
    intro text j h
    split at h
    · cases h
      decide
    · split at h
      · cases h
        decide
      · cases h
  dump_isSome := by
    intro j
    cases j.valid <;> rfl

/-- A linter that finds nothing. -/
def silentOutside : Outside Unit Unit := ⟨fun _ _ _ _ _ => [], fun _ _ => none, fun _ => []⟩

def noTurns (_ : Nat) : Turn Unit := ⟨(), 0, 0, 0⟩

theorem runServer_session_shutdown :
    ∃ sent, Serves shutdownLib [shutdownBody, exitBody]
      (runServer shutdownLib silentOutside noTurns ([shutdownBody, exitBody].flatMap frameMessage)) sent := by
  refine runServer_session shutdownLib ?_ silentOutside noTurns (by decide)
  intro j h
  unfold shutdownLib at h
  dsimp only at h
  split at h
  · cases h
  · cases h

example : (runServer shutdownLib silentOutside noTurns ([shutdownBody, exitBody].flatMap frameMessage)).exitCode = 0 := by
  decide +kernel

end ShaderClippy.Lsp
