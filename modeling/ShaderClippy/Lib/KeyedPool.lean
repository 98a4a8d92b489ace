/-
  ShaderClippy.Lib.KeyedPool

  **A POOL OF RESOURCES, FILED BY KEY.**

  A request is answered with an idle resource that is filed under the key of
  the request, or with a new one; a resource that is given back is filed under
  the key of the request that had it, while there is room. `madeFor` remembers
  the request that each resource was made for.

  Whatever the order of steps, there are no more idle resources than there is
  room for, no resource is in two hands, and a resource only answers requests
  with the key of the one it was made for (`inv_of_reachable`). So it answers
  only requests that are the same under `view` exactly if the key tells apart
  all requests that are not (`same_iff`).
-/
import Mathlib.Data.List.Nodup
import Mathlib.Logic.Function.Basic

namespace KeyedPool

variable {S κ Q : Type}

/-! ## §1. The steps. -/

/-- The first resource filed under `k`, and the others. -/
def take [DecidableEq κ] (k : κ) : List (S × κ) → Option (S × List (S × κ))
  | [] => none
  | e :: rest =>
      if e.2 = k then some (e.1, rest)
      else (take k rest).map fun (s, others) => (s, e :: others)

theorem take_some [DecidableEq κ] {k : κ} {idle rest : List (S × κ)} {s : S}
    (h : take k idle = some (s, rest)) :
    ∃ before after, idle = before ++ (s, k) :: after ∧ rest = before ++ after := by
  induction idle generalizing rest with
  | nil => cases h
  | cons e idle ih =>
      unfold take at h
      split at h
      next hk =>
        cases h
        exact ⟨[], idle, by rw [← hk]; rfl, rfl⟩
      next =>
        obtain ⟨⟨s', others⟩, htake, heq⟩ := Option.map_eq_some_iff.mp h
        cases heq
        obtain ⟨before, after, hidle, hothers⟩ := ih htake
        exact ⟨e :: before, after, by rw [hidle]; rfl, by rw [hothers]; rfl⟩

/-- The idle resources with their keys, the held ones with their requests. -/
structure State (S κ Q : Type) where
  idle : List (S × κ)
  held : List (S × Q)
  madeFor : S → Q

/-- The resources that are there. -/
def State.alive (st : State S κ Q) : List S := st.held.map Prod.fst ++ st.idle.map Prod.fst

/-- One step; `asked` are the requests that may come. -/
inductive Step [DecidableEq κ] [DecidableEq S] (key : Q → κ) (room : Nat) (asked : Q → Prop) :
    State S κ Q → State S κ Q → Prop where
  | reuse {st : State S κ Q} {q : Q} {s : S} {rest : List (S × κ)} : asked q →
      take (key q) st.idle = some (s, rest) →
        Step key room asked st ⟨rest, (s, q) :: st.held, st.madeFor⟩
  | make {st : State S κ Q} {q : Q} {s : S} : asked q → take (key q) st.idle = none →
      s ∉ st.alive →
        Step key room asked st ⟨st.idle, (s, q) :: st.held, Function.update st.madeFor s q⟩
  | file {st : State S κ Q} {q : Q} {s : S} {before after : List (S × Q)} :
      st.held = before ++ (s, q) :: after → st.idle.length < room →
        Step key room asked st ⟨st.idle ++ [(s, key q)], before ++ after, st.madeFor⟩
  | drop {st : State S κ Q} {q : Q} {s : S} {before after : List (S × Q)} :
      st.held = before ++ (s, q) :: after → room ≤ st.idle.length →
        Step key room asked st ⟨st.idle, before ++ after, st.madeFor⟩

/-- What the steps reach from an empty pool. -/
inductive Reachable [DecidableEq κ] [DecidableEq S] (key : Q → κ) (room : Nat)
    (asked : Q → Prop) : State S κ Q → Prop where
  | empty (madeFor : S → Q) : Reachable key room asked ⟨[], [], madeFor⟩
  | step {st st' : State S κ Q} : Reachable key room asked st → Step key room asked st st' →
      Reachable key room asked st'

/-! ## §2. The invariant. -/

/-- What holds of the pool and of those that hold its resources. -/
structure Inv (key : Q → κ) (room : Nat) (asked : Q → Prop) (st : State S κ Q) : Prop where
  capped : st.idle.length ≤ room
  /-- No resource is twice in the pool, in two hands, or in both. -/
  distinct : st.alive.Nodup
  filed : ∀ e ∈ st.idle, key (st.madeFor e.1) = e.2
  answered : ∀ h ∈ st.held, key (st.madeFor h.1) = key h.2
  /-- Only what was asked for is answered, and made. -/
  wanted : ∀ h ∈ st.held, asked h.2
  made : ∀ s ∈ st.alive, asked (st.madeFor s)

section Steps

variable {key : Q → κ} {room : Nat} {asked : Q → Prop}

theorem inv_empty (madeFor : S → Q) : Inv key room asked ⟨[], [], madeFor⟩ where
  capped := Nat.zero_le _
  distinct := List.nodup_nil
  filed _ h := absurd h List.not_mem_nil
  answered _ h := absurd h List.not_mem_nil
  wanted _ h := absurd h List.not_mem_nil
  made _ h := absurd h List.not_mem_nil

/-- A resource moves from the pool into a hand. -/
theorem Inv.reuse [DecidableEq κ] {st : State S κ Q} (h : Inv key room asked st) {q : Q}
    {s : S} {rest : List (S × κ)} (hq : asked q) (htake : take (key q) st.idle = some (s, rest)) :
    Inv key room asked ⟨rest, (s, q) :: st.held, st.madeFor⟩ := by
  obtain ⟨before, after, hidle, rfl⟩ := take_some htake
  have hsub : ∀ e ∈ before ++ after, e ∈ st.idle := by
    intro e he
    rw [hidle]
    rcases List.mem_append.mp he with he | he
    · exact List.mem_append_left _ he
    · exact List.mem_append_right _ (List.mem_cons_of_mem _ he)
  have hs : (s, key q) ∈ st.idle := by
    rw [hidle]
    exact List.mem_append_right _ (List.mem_cons_self ..)
  have hperm : ((s, q) :: st.held).map Prod.fst ++ (before ++ after).map Prod.fst
      |>.Perm st.alive := by
    unfold State.alive
    rw [hidle]
    simp only [List.map_cons, List.map_append, List.cons_append]
    rw [← List.append_assoc, ← List.append_assoc]
    exact List.perm_middle.symm
  refine ⟨?_, hperm.nodup_iff.mpr h.distinct, fun e he => h.filed e (hsub e he), fun e he => ?_,
    fun e he => ?_, fun t ht => h.made t (hperm.mem_iff.mp ht)⟩
  · have hcap := h.capped
    rw [hidle] at hcap
    simp only [List.length_append, List.length_cons] at hcap ⊢
    omega
  · cases he with
    | head => exact h.filed _ hs
    | tail _ he => exact h.answered e he
  · cases he with
    | head => exact hq
    | tail _ he => exact h.wanted e he

/-- A new resource is in one hand only. -/
theorem Inv.make [DecidableEq S] {st : State S κ Q} (h : Inv key room asked st) {q : Q} {s : S}
    (hq : asked q) (hnew : s ∉ st.alive) :
    Inv key room asked ⟨st.idle, (s, q) :: st.held, Function.update st.madeFor s q⟩ := by
  have hold : ∀ t ∈ st.alive, Function.update st.madeFor s q t = st.madeFor t := by
    intro t ht
    have hne : t ≠ s := by
      rintro rfl
      exact hnew ht
    exact Function.update_of_ne hne _ _
  have hheld : ∀ e ∈ st.held, e.1 ∈ st.alive := fun e he =>
    List.mem_append_left _ (List.mem_map_of_mem he)
  refine ⟨h.capped, List.nodup_cons.mpr ⟨hnew, h.distinct⟩, fun e he => ?_, fun e he => ?_,
    fun e he => ?_, fun t ht => ?_⟩
  · show key (Function.update st.madeFor s q e.1) = e.2
    rw [hold e.1 (List.mem_append_right _ (List.mem_map_of_mem he))]
    exact h.filed e he
  · show key (Function.update st.madeFor s q e.1) = key e.2
    cases he with
    | head => rw [Function.update_self]
    | tail _ he =>
        rw [hold e.1 (hheld e he)]
        exact h.answered e he
  · cases he with
    | head => exact hq
    | tail _ he => exact h.wanted e he
  · show asked (Function.update st.madeFor s q t)
    rcases List.mem_cons.mp ht with rfl | ht
    · rw [Function.update_self]
      exact hq
    · rw [hold t ht]
      exact h.made t ht

/-- A resource leaves a hand. -/
theorem Inv.leave {st : State S κ Q} (h : Inv key room asked st) {q : Q} {s : S}
    {before after : List (S × Q)} (hheld : st.held = before ++ (s, q) :: after) :
    Inv key room asked ⟨st.idle, before ++ after, st.madeFor⟩
      ∧ s ∉ (before ++ after).map Prod.fst ++ st.idle.map Prod.fst := by
  have hsub : ∀ e ∈ before ++ after, e ∈ st.held := by
    intro e he
    rw [hheld]
    rcases List.mem_append.mp he with he | he
    · exact List.mem_append_left _ he
    · exact List.mem_append_right _ (List.mem_cons_of_mem _ he)
  have hperm : st.alive.Perm (s :: ((before ++ after).map Prod.fst ++ st.idle.map Prod.fst)) := by
    unfold State.alive
    rw [hheld]
    simp only [List.map_cons, List.map_append, List.append_assoc, List.cons_append]
    exact List.perm_middle
  have hnodup := List.nodup_cons.mp (hperm.nodup_iff.mp h.distinct)
  exact ⟨⟨h.capped, hnodup.2, h.filed, fun e he => h.answered e (hsub e he),
    fun e he => h.wanted e (hsub e he),
    fun t ht => h.made t (hperm.mem_iff.mpr (List.mem_cons_of_mem _ ht))⟩, hnodup.1⟩

/-- And goes into the pool. -/
theorem Inv.file {st : State S κ Q} (h : Inv key room asked st) {q : Q} {s : S}
    {before after : List (S × Q)} (hheld : st.held = before ++ (s, q) :: after)
    (hroom : st.idle.length < room) :
    Inv key room asked ⟨st.idle ++ [(s, key q)], before ++ after, st.madeFor⟩ := by
  obtain ⟨hleft, hgone⟩ := h.leave hheld
  have hmem : (s, q) ∈ st.held := by
    rw [hheld]
    exact List.mem_append_right _ (List.mem_cons_self ..)
  have hperm : ((before ++ after).map Prod.fst ++ (st.idle ++ [(s, key q)]).map Prod.fst).Perm
      (s :: ((before ++ after).map Prod.fst ++ st.idle.map Prod.fst)) := by
    have hidle : (st.idle ++ [(s, key q)]).map Prod.fst = st.idle.map Prod.fst ++ [s] :=
      List.map_append
    rw [hidle, ← List.append_assoc]
    exact List.perm_append_singleton _ _
  refine ⟨?_, hperm.nodup_iff.mpr (List.nodup_cons.mpr ⟨hgone, hleft.distinct⟩), fun e he => ?_,
    hleft.answered, hleft.wanted, fun t ht => ?_⟩
  · rw [List.length_append, List.length_singleton]
    exact hroom
  · rcases List.mem_append.mp he with he | he
    · exact h.filed e he
    · rw [List.mem_singleton.mp he]
      exact h.answered _ hmem
  · rcases List.mem_cons.mp (hperm.mem_iff.mp ht) with rfl | ht
    · exact h.made t (List.mem_append_left _ (List.mem_map_of_mem hmem))
    · exact hleft.made t ht

/-! ## §3. Every run. -/

section Runs

variable [DecidableEq κ] [DecidableEq S]

theorem Inv.step {st st' : State S κ Q} (h : Inv key room asked st)
    (hstep : Step key room asked st st') : Inv key room asked st' := by
  cases hstep with
  | reuse hq htake => exact h.reuse hq htake
  | make hq _ hnew => exact h.make hq hnew
  | file hheld hroom => exact h.file hheld hroom
  | drop hheld _ => exact (h.leave hheld).1

/-- **The invariant of every run.** -/
theorem inv_of_reachable {st : State S κ Q} (h : Reachable key room asked st) :
    Inv key room asked st := by
  induction h with
  | empty madeFor => exact inv_empty madeFor
  | step _ hstep ih => exact ih.step hstep

/-! ## §4. When resources answer the right requests. -/

/-- Two requests with one key: the second gets what was made for the first. -/
theorem reachable_shared (s : S) {q q' : Q} (hroom : 0 < room) (hq : asked q) (hq' : asked q')
    (hkey : key q = key q') :
    ∃ st : State S κ Q, Reachable key room asked st ∧ (s, q') ∈ st.held ∧ st.madeFor s = q := by
  have hmade : Reachable key room asked
      (⟨[], [(s, q)], Function.update (fun _ => q) s q⟩ : State S κ Q) :=
    (Reachable.empty fun _ => q).step (.make hq rfl List.not_mem_nil)
  have hfile := @Step.file S κ Q _ _ key room asked
    ⟨[], [(s, q)], Function.update (fun _ => q) s q⟩ q s [] []
  have hfiled : Reachable key room asked
      (⟨[(s, key q)], [], Function.update (fun _ => q) s q⟩ : State S κ Q) :=
    hmade.step (hfile rfl hroom)
  have htake : take (key q') [(s, key q)] = some (s, []) := by
    unfold take
    rw [if_pos hkey]
  exact ⟨_, hfiled.step (.reuse hq' htake), List.mem_cons_self ..,
    Function.update_self s q fun _ => q⟩

/-- **Resources are held only for requests that are the same as the one they
were made for, exactly if the key tells the others apart.** -/
theorem same_iff [Nonempty S] {β : Type} (view : Q → β) (hroom : 0 < room) :
    (∀ st : State S κ Q, Reachable key room asked st →
        ∀ h ∈ st.held, view (st.madeFor h.1) = view h.2)
      ↔ ∀ q q', asked q → asked q' → key q = key q' → view q = view q' := by
  constructor
  · intro hsame q q' hq hq' hkey
    obtain ⟨st, hst, hmem, hmade⟩ := reachable_shared (Classical.arbitrary S) hroom hq hq' hkey
    have hview := hsame st hst _ hmem
    rw [hmade] at hview
    exact hview
  · intro hsep st hst h hmem
    have hinv := inv_of_reachable hst
    exact hsep _ _ (hinv.made _ (List.mem_append_left _ (List.mem_map_of_mem hmem)))
      (hinv.wanted h hmem) (hinv.answered h hmem)

end Runs

end Steps

end KeyedPool
