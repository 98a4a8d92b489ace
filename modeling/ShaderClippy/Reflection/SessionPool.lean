/-
  ShaderClippy.Reflection.SessionPool

  **THE SESSION POOL OF THE BRIDGE** (`SlangBridge::Impl`, `slang_bridge.cpp`).

  Every call of `reflect` acquires a session and gives it back when it returns;
  calls from several threads overlap. A session is a handle that Slang returns
  (`createSession`, from the profile and the search paths), or that lies idle in
  the pool with the profile and the joined include directories of the call that
  had it.

  The pool is capped, and no session is with two calls at once. But two
  include lists may be joined to one key: `reuse_iff` says which requests may
  get the sessions of one another.
-/
import Mathlib.Data.List.InsertIdx
import ShaderClippy.Lib.KeyedPool
import ShaderClippy.Reflection.Engine

namespace ShaderClippy.Reflection

/-! ## §1. `Impl`. -/

/-- `SessionEntry`. -/
structure SessionEntry where
  session : Nat
  targetProfile : Text
  includeKey : Text
  deriving Repr, DecidableEq

/-- `SlangBridge::Impl`; `globalSession`: was it created? -/
structure Impl where
  globalSession : Bool
  sessionPool : List SessionEntry
  poolSizeCap : Nat
  deriving Repr, DecidableEq

/-- `pool_size == 0U ? 1U : pool_size`. -/
def capOf (poolSize : Nat) : Nat := if poolSize = 0 then 1 else poolSize

/-- The constructor. -/
def Impl.new (globalSession : Bool) (poolSize : Nat) : Impl := ⟨globalSession, [], capOf poolSize⟩

/-- The loop of `acquire`: the first entry that fits, and the pool without it. -/
def takeSession (targetProfile includeKey : Text) :
    List SessionEntry → Option (Nat × List SessionEntry)
  | [] => none
  | it :: rest =>
      if it.targetProfile = targetProfile ∧ it.includeKey = includeKey then some (it.session, rest)
      else
        (takeSession targetProfile includeKey rest).map fun (session, others) =>
          (session, it :: others)

/-- **`acquire`**; `createSession` is what Slang makes of a profile and the
search paths, if it does. -/
def Impl.acquire (impl : Impl) (createSession : Text → List Text → Option Nat)
    (targetProfile : Text) (includeDirectories : List Text) : Option Nat × Impl :=
  if !impl.globalSession then (none, impl)
  else
    match takeSession targetProfile (includeKey includeDirectories) impl.sessionPool with
    | some (session, others) => (some session, { impl with sessionPool := others })
    | none => (createSession targetProfile (includeDirectories.map lexicallyNormal), impl)

/-- **`release`.** -/
def Impl.release (impl : Impl) (session : Option Nat) (targetProfile includeKey : Text) : Impl :=
  match session with
  | none => impl
  | some session =>
      if impl.sessionPool.length < impl.poolSizeCap then
        { impl with
          sessionPool := impl.sessionPool ++ [⟨session, targetProfile, includeKey⟩] }
      else impl

/-! ## §2. Calls of `reflect`. -/

/-- `k_default_profile`. -/
def kDefaultProfile : Text := "sm_6_6".toList

/-- What a call takes for its profile. -/
def profileOf (targetProfile : Text) : Text :=
  if targetProfile = [] then kDefaultProfile else targetProfile

/-- A profile, never empty, and include directories, as they were given. -/
abbrev Request := Text × List Text

/-- A call that has a session: what its `Releaser` holds, and what was asked
for. -/
structure Call where
  session : Nat
  targetProfile : Text
  includeKey : Text
  request : Request
  keyed : (targetProfile, includeKey) = (request.1, Reflection.includeKey request.2)

/-- The bridge, the calls that have a session, and for which request each
session was created. -/
structure Bridge where
  impl : Impl
  calls : List Call
  createdFor : Nat → Request

/-- A session that is idle or with a call. -/
def Bridge.InUse (b : Bridge) (session : Nat) : Prop :=
  session ∈ b.calls.map Call.session ++ b.impl.sessionPool.map SessionEntry.session

/-- `reflect` up to its `Releaser`. An unknown source id returns before. -/
def Bridge.enter (b : Bridge) (createSession : Text → List Text → Option Nat)
    (targetProfile : Text) (includeDirectories : List Text) : Bridge :=
  if !b.impl.globalSession then b
  else
    let profile := profileOf targetProfile
    let key := includeKey includeDirectories
    match b.impl.acquire createSession profile includeDirectories with
    | (none, impl) => { b with impl := impl }
    | (some session, impl) =>
        let request := (profile, includeDirectories)
        ⟨impl, ⟨session, profile, key, request, rfl⟩ :: b.calls,
          if (takeSession profile key b.impl.sessionPool).isSome then b.createdFor
          else Function.update b.createdFor session request⟩

/-- The `i`-th call returns: `~Releaser`. -/
def Bridge.leave (b : Bridge) (i : Nat) : Bridge :=
  match b.calls[i]? with
  | none => b
  | some c =>
      { b with
        impl := b.impl.release (some c.session) c.targetProfile c.includeKey
        calls := b.calls.eraseIdx i }

/-- What any calls lead to, one after another or overlapping. `may` are the
profiles and include directories they may have; a session that Slang creates is
not one that is in use. -/
inductive Reached (may : Text → List Text → Prop) (globalSession : Bool) (poolSize : Nat) :
    Bridge → Prop where
  | start (createdFor : Nat → Request) :
      Reached may globalSession poolSize ⟨Impl.new globalSession poolSize, [], createdFor⟩
  | enter {b : Bridge} (createSession : Text → List Text → Option Nat) {targetProfile : Text}
      {includeDirectories : List Text} : Reached may globalSession poolSize b →
      may targetProfile includeDirectories →
      (∀ profile paths session, createSession profile paths = some session → ¬ b.InUse session) →
        Reached may globalSession poolSize
          (b.enter createSession targetProfile includeDirectories)
  | leave {b : Bridge} (i : Nat) : Reached may globalSession poolSize b →
      Reached may globalSession poolSize (b.leave i)

/-! ## §3. It is a pool of resources, filed by key. -/

/-- What the sessions of a request are filed under. -/
def keyOf (request : Request) : Text × Text := (request.1, includeKey request.2)

/-- The requests of the calls that may be. -/
def Asked (may : Text → List Text → Prop) (request : Request) : Prop :=
  ∃ targetProfile, may targetProfile request.2 ∧ request.1 = profileOf targetProfile

def SessionEntry.filed (e : SessionEntry) : Nat × Text × Text :=
  (e.session, e.targetProfile, e.includeKey)

def Call.holding (c : Call) : Nat × Request := (c.session, c.request)

/-- The bridge as such a pool. -/
def Bridge.pool (b : Bridge) : KeyedPool.State Nat (Text × Text) Request :=
  ⟨b.impl.sessionPool.map SessionEntry.filed, b.calls.map Call.holding, b.createdFor⟩

/-- Looking for a session in the list of entries is taking it from the keyed pool. -/
theorem take_filed (targetProfile includeKey : Text) (pool : List SessionEntry) :
    KeyedPool.take (targetProfile, includeKey) (pool.map SessionEntry.filed)
      = (takeSession targetProfile includeKey pool).map fun (session, others) =>
          (session, others.map SessionEntry.filed) := by
  induction pool with
  | nil => rfl
  | cons it rest ih =>
      rw [List.map_cons, KeyedPool.take, takeSession, ih]
      have hkey : it.filed.2 = (targetProfile, includeKey)
          ↔ it.targetProfile = targetProfile ∧ it.includeKey = includeKey := Prod.mk.injEq .. ▸ Iff.rfl
      by_cases hfits : it.targetProfile = targetProfile ∧ it.includeKey = includeKey
      · rw [if_pos hfits, if_pos (hkey.mpr hfits)]
        rfl
      · rw [if_neg hfits, if_neg fun h => hfits (hkey.mp h), Option.map_map, Option.map_map]
        rfl

theorem take_pool (b : Bridge) (request : Request) :
    KeyedPool.take (keyOf request) b.pool.idle
      = (takeSession request.1 (includeKey request.2) b.impl.sessionPool).map
          fun (session, others) => (session, others.map SessionEntry.filed) :=
  take_filed ..

/-- A session is alive in the pool when a call holds it or it waits in the list. -/
theorem alive_pool (b : Bridge) (session : Nat) : session ∈ b.pool.alive ↔ b.InUse session := by
  unfold KeyedPool.State.alive Bridge.pool Bridge.InUse
  rw [List.map_map, List.map_map]
  rfl

/-- A call that finds a session in the pool. -/
theorem enter_reuse {b : Bridge} {targetProfile : Text} {includeDirectories : List Text}
    {session : Nat} {others : List SessionEntry}
    (createSession : Text → List Text → Option Nat) (hglobal : b.impl.globalSession = true)
    (htake : takeSession (profileOf targetProfile) (includeKey includeDirectories)
      b.impl.sessionPool = some (session, others)) :
    (b.enter createSession targetProfile includeDirectories).pool
      = ⟨others.map SessionEntry.filed,
          (session, profileOf targetProfile, includeDirectories) :: b.pool.held, b.createdFor⟩ := by
  unfold Bridge.enter Impl.acquire
  simp only [hglobal, htake]
  rfl

/-- A call that gets a new session. -/
theorem enter_make {b : Bridge} {targetProfile : Text} {includeDirectories : List Text}
    {session : Nat} {createSession : Text → List Text → Option Nat}
    (hglobal : b.impl.globalSession = true)
    (htake : takeSession (profileOf targetProfile) (includeKey includeDirectories)
      b.impl.sessionPool = none)
    (hcreate : createSession (profileOf targetProfile) (includeDirectories.map lexicallyNormal)
      = some session) :
    (b.enter createSession targetProfile includeDirectories).pool
      = ⟨b.pool.idle, (session, profileOf targetProfile, includeDirectories) :: b.pool.held,
          Function.update b.createdFor session (profileOf targetProfile, includeDirectories)⟩ := by
  unfold Bridge.enter Impl.acquire
  simp only [hglobal, htake, hcreate]
  rfl

/-- **A call enters**: a step of the pool, or none. -/
theorem enter_step {may : Text → List Text → Prop} {b : Bridge} {targetProfile : Text}
    {includeDirectories : List Text} {createSession : Text → List Text → Option Nat}
    (hmay : may targetProfile includeDirectories)
    (hnew : ∀ profile paths session, createSession profile paths = some session →
      ¬ b.InUse session) :
    (b.enter createSession targetProfile includeDirectories).pool = b.pool
      ∨ KeyedPool.Step keyOf b.impl.poolSizeCap (Asked may) b.pool
          (b.enter createSession targetProfile includeDirectories).pool := by
  have hasked : Asked may (profileOf targetProfile, includeDirectories) := ⟨_, hmay, rfl⟩
  cases hglobal : b.impl.globalSession with
  | false =>
      refine .inl ?_
      unfold Bridge.enter
      rw [hglobal]
      rfl
  | true =>
      have htaken := take_pool b (profileOf targetProfile, includeDirectories)
      cases htake : takeSession (profileOf targetProfile) (includeKey includeDirectories)
          b.impl.sessionPool with
      -- a waiting session with the key is taken
      | some found =>
          rw [htake] at htaken
          rw [enter_reuse createSession hglobal htake]
          exact .inr (.reuse hasked htaken)
      | none =>
          rw [htake] at htaken
          cases hcreate : createSession (profileOf targetProfile)
              (includeDirectories.map lexicallyNormal) with
          | none =>
              refine .inl ?_
              unfold Bridge.enter Impl.acquire
              simp only [hglobal, htake, hcreate]
              rfl
          -- else one is made, which no call uses yet
          | some session =>
              rw [enter_make hglobal htake hcreate]
              refine .inr (.make hasked htaken fun h => ?_)
              exact hnew _ _ _ hcreate ((alive_pool b session).mp h)

/-- What a returning call leaves behind. -/
theorem leave_pool {b : Bridge} {i : Nat} {c : Call} (hc : b.calls[i]? = some c) :
    (b.leave i).pool
      = ⟨if b.pool.idle.length < b.impl.poolSizeCap then
            b.pool.idle ++ [(c.session, keyOf c.request)]
          else b.pool.idle,
        b.pool.held.eraseIdx i, b.createdFor⟩ := by
  have hlen : b.pool.idle.length = b.impl.sessionPool.length := List.length_map _
  have hheld : (b.calls.eraseIdx i).map Call.holding = b.pool.held.eraseIdx i :=
    (List.eraseIdx_map ..).symm
  have hkeyed : keyOf c.request = (c.targetProfile, c.includeKey) := c.keyed.symm
  unfold Bridge.leave Impl.release
  rw [hc, hlen, hkeyed, ← hheld]
  dsimp only
  -- filed while there is room, else destroyed
  by_cases hroom : b.impl.sessionPool.length < b.impl.poolSizeCap
  · rw [if_pos hroom, if_pos hroom]
    unfold Bridge.pool
    rw [List.map_append]
    rfl
  · rw [if_neg hroom, if_neg hroom]
    rfl

/-- **A call returns**: its session is filed while there is room, else it is
dropped. -/
theorem leave_step (may : Text → List Text → Prop) {b : Bridge} {i : Nat} {c : Call}
    (hc : b.calls[i]? = some c) :
    KeyedPool.Step keyOf b.impl.poolSizeCap (Asked may) b.pool (b.leave i).pool := by
  have hget : b.pool.held[i]? = some (c.session, c.request) := by
    show (b.calls.map Call.holding)[i]? = _
    rw [List.getElem?_map, hc]
    rfl
  obtain ⟨hlt, hhere⟩ := List.getElem?_eq_some_iff.mp hget
  have hheld : b.pool.held
      = b.pool.held.take i ++ (c.session, c.request) :: b.pool.held.drop (i + 1) := by
    rw [← hhere, ← List.drop_eq_getElem_cons hlt, List.take_append_drop]
  rw [leave_pool hc, List.eraseIdx_eq_take_drop_succ]
  split
  next hroom => exact .file hheld hroom
  next hroom => exact .drop hheld (Nat.le_of_not_lt hroom)

/-- A call changes neither the global session nor the cap. -/
theorem enter_impl (b : Bridge) (createSession : Text → List Text → Option Nat)
    (targetProfile : Text) (includeDirectories : List Text) :
    (b.enter createSession targetProfile includeDirectories).impl.globalSession
        = b.impl.globalSession
      ∧ (b.enter createSession targetProfile includeDirectories).impl.poolSizeCap
        = b.impl.poolSizeCap := by
  unfold Bridge.enter Impl.acquire
  cases hglobal : b.impl.globalSession with
  | false => exact ⟨hglobal, rfl⟩
  | true =>
      cases htake : takeSession (profileOf targetProfile) (includeKey includeDirectories)
          b.impl.sessionPool with
      | some found => simp [htake]
      | none =>
          cases hcreate : createSession (profileOf targetProfile)
            (includeDirectories.map lexicallyNormal) <;> simp [hglobal, htake, hcreate]

theorem leave_impl (b : Bridge) (i : Nat) :
    (b.leave i).impl.globalSession = b.impl.globalSession
      ∧ (b.leave i).impl.poolSizeCap = b.impl.poolSizeCap := by
  unfold Bridge.leave Impl.release
  cases b.calls[i]? with
  | none => exact ⟨rfl, rfl⟩
  | some c =>
      dsimp only
      split <;> exact ⟨rfl, rfl⟩

section Reached

variable {may : Text → List Text → Prop} {globalSession : Bool} {poolSize : Nat}

/-- Both are those the bridge was built with. -/
theorem reached_impl {b : Bridge} (h : Reached may globalSession poolSize b) :
    b.impl.globalSession = globalSession ∧ b.impl.poolSizeCap = capOf poolSize := by
  induction h with
  | start _ => exact ⟨rfl, rfl⟩
  | enter createSession _ _ _ ih =>
      obtain ⟨hglobal, hcap⟩ := enter_impl _ createSession _ _
      exact ⟨hglobal.trans ih.1, hcap.trans ih.2⟩
  | leave i _ ih =>
      obtain ⟨hglobal, hcap⟩ := leave_impl _ i
      exact ⟨hglobal.trans ih.1, hcap.trans ih.2⟩

/-- **Every run of the bridge is one of the pool.** -/
theorem reachable_of_reached {b : Bridge} (h : Reached may globalSession poolSize b) :
    KeyedPool.Reachable keyOf (capOf poolSize) (Asked may) b.pool := by
  induction h with
  | start createdFor => exact .empty createdFor
  | @enter b createSession targetProfile includeDirectories hb hmay hnew ih =>
      have hstep := enter_step hmay hnew
      rw [(reached_impl hb).2] at hstep
      rcases hstep with hsame | hstep
      · rw [hsame]
        exact ih
      · exact ih.step hstep
  | @leave b i hb ih =>
      cases hc : b.calls[i]? with
      | none =>
          have hsame : b.leave i = b := by
            unfold Bridge.leave
            rw [hc]
          rw [hsame]
          exact ih
      | some c =>
          have hstep := leave_step may hc
          rw [(reached_impl hb).2] at hstep
          exact ih.step hstep

/-- The call that holds a session of the pool, and the calls without it. -/
theorem call_of_held {b : Bridge} {session : Nat} {request : Request}
    {before after : List (Nat × Request)}
    (h : b.pool.held = before ++ (session, request) :: after) :
    ∃ c, b.calls[before.length]? = some c ∧ c.session = session ∧ c.request = request
      ∧ b.pool.held.eraseIdx before.length = before ++ after := by
  have hget : (b.calls.map Call.holding)[before.length]? = some (session, request) := by
    show b.pool.held[before.length]? = _
    rw [h, List.getElem?_append_right (Nat.le_refl _), Nat.sub_self]
    rfl
  rw [List.getElem?_map] at hget
  obtain ⟨c, hc, hholding⟩ := Option.map_eq_some_iff.mp hget
  refine ⟨c, hc, congrArg Prod.fst hholding, congrArg Prod.snd hholding, ?_⟩
  rw [h, List.eraseIdx_append_of_length_le (Nat.le_refl _), Nat.sub_self]
  rfl

/-- **And every run of the pool is one of the bridge.** -/
theorem reached_of_reachable {st : KeyedPool.State Nat (Text × Text) Request}
    (h : KeyedPool.Reachable keyOf (capOf poolSize) (Asked may) st) :
    ∃ b, Reached may true poolSize b ∧ b.pool = st := by
  induction h with
  | empty createdFor => exact ⟨_, .start createdFor, rfl⟩
  | step _ hstep ih =>
      obtain ⟨b, hb, rfl⟩ := ih
      obtain ⟨hglobal, hcap⟩ := reached_impl hb
      cases hstep with
      | @reuse q s rest hq htake =>
          obtain ⟨profile, includeDirectories⟩ := q
          obtain ⟨targetProfile, hmay, rfl⟩ := hq
          rw [take_pool] at htake
          obtain ⟨⟨session, others⟩, hfound, heq⟩ := Option.map_eq_some_iff.mp htake
          cases heq
          exact ⟨_, .enter (fun _ _ => none) hb hmay nofun, enter_reuse _ hglobal hfound⟩
      -- the library may hand out this very session
      | @make q s hq htake hnew =>
          obtain ⟨profile, includeDirectories⟩ := q
          obtain ⟨targetProfile, hmay, rfl⟩ := hq
          rw [take_pool] at htake
          have hnone := Option.map_eq_none_iff.mp htake
          refine ⟨_, .enter (fun _ _ => some s) hb hmay ?_, enter_make hglobal hnone rfl⟩
          rintro _ _ session ⟨⟩ huse
          exact hnew ((alive_pool b s).mpr huse)
      | @file q s before after hheld hroom =>
          obtain ⟨c, hc, rfl, rfl, hrest⟩ := call_of_held hheld
          refine ⟨_, .leave before.length hb, ?_⟩
          rw [leave_pool hc, hrest, hcap, if_pos hroom]
          rfl
      | @drop q s before after hheld hroom =>
          obtain ⟨c, hc, rfl, rfl, hrest⟩ := call_of_held hheld
          refine ⟨_, .leave before.length hb, ?_⟩
          rw [leave_pool hc, hrest, hcap, if_neg (Nat.not_lt_of_le hroom)]
          rfl

/-! ## §4. What the key tells apart. -/

/-- What is left of a list of include directories in its key: empty ones in
front are gone, and the others are cut at their line breaks. -/
def keyLines (includeDirectories : List Text) : List Text :=
  ((includeDirectories.map lexicallyNormal).dropWhile fun dir => decide (dir = [])).flatMap
    (Lines.split '\n')

/-- Once the key is not empty, every directory comes behind a line break. -/
theorem includeKey_go (dirs : List Text) {out : Text} (hout : out ≠ []) :
    dirs.foldl (fun out dir => (if out = [] then out else out ++ ['\n']) ++ lexicallyNormal dir) out
      = Lines.join '\n' (out :: dirs.map lexicallyNormal) := by
  induction dirs generalizing out with
  | nil => rfl
  | cons dir dirs ih =>
      have hnext : (out ++ ['\n']) ++ lexicallyNormal dir ≠ [] := by simp
      rw [List.foldl_cons, if_neg hout, ih hnext, Lines.join_cons_append, List.map_cons,
        Lines.join_cons '\n' out (List.cons_ne_nil _ _), List.append_assoc]
      rfl

/-- The key is the lines of the paths, the empty ones in front left out. -/
theorem includeKey_eq (dirs : List Text) :
    includeKey dirs
      = Lines.join '\n' ((dirs.map lexicallyNormal).dropWhile fun dir => decide (dir = [])) := by
  induction dirs with
  | nil => rfl
  | cons dir dirs ih =>
      unfold includeKey at ih ⊢
      rw [List.foldl_cons, if_pos rfl, List.nil_append, List.map_cons, List.dropWhile_cons]
      by_cases hdir : lexicallyNormal dir = []
      · rw [if_pos (decide_eq_true hdir), hdir, ih]
      · rw [if_neg (by rw [decide_eq_true_eq]; exact hdir), includeKey_go dirs hdir]

/-- The key is its lines, joined. -/
theorem join_keyLines (dirs : List Text) : Lines.join '\n' (keyLines dirs) = includeKey dirs := by
  rw [includeKey_eq]
  unfold keyLines
  by_cases hnil : ((dirs.map lexicallyNormal).dropWhile fun dir => decide (dir = [])) = []
  · rw [hnil]
    rfl
  · rw [← Lines.split_join_pieces '\n' hnil, Lines.join_split]

/-- And they are read off from it. -/
theorem keyLines_eq (dirs : List Text) :
    keyLines dirs = if includeKey dirs = [] then [] else Lines.split '\n' (includeKey dirs) := by
  rw [includeKey_eq]
  unfold keyLines
  cases hkept : (dirs.map lexicallyNormal).dropWhile fun dir => decide (dir = []) with
  | nil => rfl
  | cons dir rest =>
      have hdir : dir ≠ [] := by
        have hhead := List.head_dropWhile_not (fun dir : Text => decide (dir = []))
          (l := dirs.map lexicallyNormal) (by rw [hkept]; exact List.cons_ne_nil _ _)
        simp only [hkept, List.head_cons, decide_eq_false_iff_not] at hhead
        exact hhead
      have hne : Lines.join '\n' (dir :: rest) ≠ [] := by
        intro h
        cases rest with
        | nil => exact hdir h
        | cons _ _ =>
            rw [Lines.join_cons '\n' dir (List.cons_ne_nil _ _)] at h
            exact hdir (List.append_eq_nil_iff.mp h).1
      rw [if_neg hne, Lines.split_join_pieces '\n' (List.cons_ne_nil _ _)]

/-- **Two include lists have one key exactly if they have the same lines.** -/
theorem includeKey_eq_iff (dirs dirs' : List Text) :
    includeKey dirs = includeKey dirs' ↔ keyLines dirs = keyLines dirs' := by
  constructor
  · intro h
    rw [keyLines_eq, keyLines_eq, h]
  · intro h
    rw [← join_keyLines, ← join_keyLines, h]

/-! ## §5. The law of the pool. -/

/-- At most `capOf poolSize` sessions are idle, none is with two calls, and
every call has a session that was created for its profile and for include
directories that are the same under `view`. -/
def PoolLaw {α : Type} (view : List Text → α) (poolSize : Nat) (b : Bridge) : Prop :=
  b.impl.sessionPool.length ≤ capOf poolSize
    ∧ (b.calls.map Call.session).Nodup
    ∧ ∀ c ∈ b.calls, (b.createdFor c.session).1 = c.targetProfile
        ∧ view (b.createdFor c.session).2 = view c.request.2

/-- Include lists with the same lines that come with one profile are the same
under `view`. -/
def ToldApart {α : Type} (may : Text → List Text → Prop) (view : List Text → α) : Prop :=
  ∀ profile dirs profile' dirs', may profile dirs → may profile' dirs' →
    profileOf profile = profileOf profile' → keyLines dirs = keyLines dirs' → view dirs = view dirs'

/-- The cap holds, and no session is with two calls or with a call and idle,
whatever the requests. -/
theorem pool_capped_and_exclusive {b : Bridge} (h : Reached may globalSession poolSize b) :
    b.impl.sessionPool.length ≤ capOf poolSize
      ∧ (b.calls.map Call.session ++ b.impl.sessionPool.map SessionEntry.session).Nodup := by
  have hinv := KeyedPool.inv_of_reachable (reachable_of_reached h)
  have hcap := hinv.capped
  have hdistinct := hinv.distinct
  unfold KeyedPool.State.alive Bridge.pool at hdistinct
  rw [List.map_map, List.map_map] at hdistinct
  rw [show b.pool.idle.length = b.impl.sessionPool.length from List.length_map _] at hcap
  exact ⟨hcap, hdistinct⟩

/-- A pool size of zero is read as one. -/
theorem capOf_pos (poolSize : Nat) : 0 < capOf poolSize := by
  unfold capOf
  split <;> omega

/-- The third part of the law, about the pool. -/
theorem created_iff_same {α : Type} (view : List Text → α) (b : Bridge) :
    (∀ c ∈ b.calls, (b.createdFor c.session).1 = c.targetProfile
        ∧ view (b.createdFor c.session).2 = view c.request.2)
      ↔ ∀ h ∈ b.pool.held, ((b.pool.madeFor h.1).1, view (b.pool.madeFor h.1).2)
        = (h.2.1, view h.2.2) := by
  unfold Bridge.pool
  simp only [List.forall_mem_map, Call.holding, Prod.mk.injEq]
  refine forall_congr' fun c => forall_congr' fun _ => ?_
  rw [show c.targetProfile = c.request.1 from congrArg Prod.fst c.keyed]

end Reached

/-- **When the law of the pool holds**, for any pool size, any way to compare
include lists, and any requests: in every run of calls exactly if the keys tell
those requests apart. The cap and the exclusive use hold in any case. -/
theorem poolLaw_iff {α : Type} (view : List Text → α) (may : Text → List Text → Prop)
    (poolSize : Nat) :
    (∀ globalSession b, Reached may globalSession poolSize b →
        b.impl.sessionPool.length ≤ capOf poolSize
          ∧ (b.calls.map Call.session ++ b.impl.sessionPool.map SessionEntry.session).Nodup)
      ∧ ((∀ globalSession b, Reached may globalSession poolSize b → PoolLaw view poolSize b)
        ↔ ToldApart may view) := by
  refine ⟨fun _ _ h => pool_capped_and_exclusive h, ?_⟩
  have hsame := @KeyedPool.same_iff Nat (Text × Text) Request keyOf (capOf poolSize) (Asked may)
    _ _ _ _ (fun q => (q.1, view q.2)) (capOf_pos poolSize)
  -- the keys of the pool tell requests apart when the lines of the paths do
  have hapart : (∀ q q', Asked may q → Asked may q' → keyOf q = keyOf q' →
      (q.1, view q.2) = (q'.1, view q'.2)) ↔ ToldApart may view := by
    constructor
    · intro h profile dirs profile' dirs' hmay hmay' hprofile hlines
      refine (Prod.mk.inj (h (profileOf profile, dirs) (profileOf profile', dirs')
        ⟨_, hmay, rfl⟩ ⟨_, hmay', rfl⟩ ?_)).2
      exact Prod.ext hprofile ((includeKey_eq_iff ..).mpr hlines)
    · rintro h ⟨_, dirs⟩ ⟨_, dirs'⟩ ⟨profile, hmay, rfl⟩ ⟨profile', hmay', rfl⟩ hkey
      obtain ⟨hprofile, hkeys⟩ := Prod.mk.inj hkey
      exact Prod.ext hprofile
        (h _ _ _ _ hmay hmay' hprofile ((includeKey_eq_iff ..).mp hkeys))
  rw [← hapart, ← hsame]
  constructor
  · intro h st hst
    obtain ⟨b, hb, rfl⟩ := reached_of_reachable hst
    exact (created_iff_same view b).mp (h true b hb).2.2
  · intro h globalSession b hb
    obtain ⟨hcap, hdistinct⟩ := pool_capped_and_exclusive hb
    exact ⟨hcap, (List.nodup_append.mp hdistinct).1,
      (created_iff_same view b).mpr (h _ (reachable_of_reached hb))⟩

/-! ## §6. A directory with a line break. -/

/-- After a call with the directory `a⏎b`, one with the directories `a` and `b`
gets its session. -/
def afterBroken : Bridge :=
  (((⟨Impl.new true 4, [], fun _ => ([], [])⟩ : Bridge).enter (fun _ _ => some 0)
    "sm_6_6".toList ["a\nb".toList]).leave 0).enter (fun _ _ => none)
      "sm_6_6".toList ["a".toList, "b".toList]

/-- **The law fails**, also for the search paths that sessions are created
with. -/
theorem afterBroken_reuses :
    ¬ (∀ b, Reached (fun _ _ => True) true 4 b → PoolLaw (List.map lexicallyNormal) 4 b)
      ∧ ¬ (∀ b, Reached (fun _ _ => True) true 4 b → PoolLaw id 4 b) := by
  -- the session made for `a⏎b` is taken for `a` and `b`
  have hreached : Reached (fun _ _ => True) true 4 afterBroken := by
    refine .enter _ (.leave 0 (.enter _ (.start _) trivial ?_)) trivial nofun
    intro _ _ _ _ huse
    exact absurd huse List.not_mem_nil
  have hcalls : afterBroken.calls.map (fun c => (c.session, c.request.2))
      = [(0, ["a".toList, "b".toList])] := by
    decide
  have hcreated : (afterBroken.createdFor 0).2 = ["a\nb".toList] := by
    decide
  have hcall : ∃ c ∈ afterBroken.calls,
      (c.session, c.request.2) = (0, ["a".toList, "b".toList]) := by
    rw [← List.mem_map, hcalls]
    exact List.mem_cons_self ..
  obtain ⟨c, hc, heq⟩ := hcall
  obtain ⟨hsession, hdirs⟩ := Prod.mk.inj heq
  constructor
  · intro h
    have hlaw := ((h _ hreached).2.2 c hc).2
    rw [hsession, hdirs, hcreated] at hlaw
    exact absurd hlaw (by decide)
  · intro h
    have hlaw := ((h _ hreached).2.2 c hc).2
    rw [hsession, hdirs, hcreated] at hlaw
    exact absurd hlaw (by decide)

end ShaderClippy.Reflection
