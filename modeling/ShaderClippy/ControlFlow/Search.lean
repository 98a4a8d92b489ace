/-
  ShaderClippy.ControlFlow.Search

  **THE GRAPH SEARCHES FIND EXACTLY THE PATHS** (`search_iff`).

  The work-list loops behind `reachable`, `barrier_separates` and
  `any_reachable_discard` look for a goal, one block or any block of a kind.
  They end, and answer `true` exactly when an edge leads to a goal from a block
  that the source reaches through blocks that are not blocked
  (`searchTo_spec`). The loop invariant is closure: whatever a seen block
  leads to is no goal, and is seen, blocked, or still hangs on a block of the
  work list.
-/
import ShaderClippy.ControlFlow.CfgStorage
import ShaderClippy.Lib.Dominance

namespace ShaderClippy.ControlFlow

open Graph (Reach)
open Loop (Turn TurnOk loop loop_spec)

/-- From a block only blocks are reached. -/
theorem reach_lt {fn : CfgFunction} {u v : Nat} (h : Reach fn.Edge u v)
    (hu : u < fn.blocks.length) : v < fn.blocks.length := by
  cases h with
  | refl => exact hu
  | tail _ he => exact he.2

/-- An edge into a block that is not blocked. -/
def Open (fn : CfgFunction) (blocked : Nat → Bool) (u v : Nat) : Prop :=
  fn.Edge u v ∧ blocked v = false

/-- `dst` is met: an edge leads to it from a block that is entered. -/
def Meets (fn : CfgFunction) (blocked : Nat → Bool) (src dst : Nat) : Prop :=
  ∃ u, Reach (Open fn blocked) src u ∧ fn.Edge u dst

/-! ## §1. The loops, for any goal. -/

/-- The inner loop: `done true` as soon as a goal is met. -/
def expandTo (fn : CfgFunction) (blocked goal : Nat → Bool) :
    List Nat → Search → Turn Search Bool
  | [], s => .more s
  | succ :: rest, s =>
      if succ ≥ fn.blocks.length || s.seen.getD succ false then expandTo fn blocked goal rest s
      else if goal succ then .done true
      else if blocked succ then expandTo fn blocked goal rest s
      else expandTo fn blocked goal rest ⟨s.seen.set succ true, succ :: s.stack⟩

/-- One turn of the work-list loop. -/
def searchStepTo (fn : CfgFunction) (testPop : Bool) (blocked goal : Nat → Bool) (s : Search) :
    Option (Turn Search Bool) :=
  match s.stack with
  | [] => some (.done false)
  | cur :: rest =>
      if testPop && goal cur then some (.done true)
      else some (expandTo fn blocked goal (fn.successors cur) ⟨s.seen, rest⟩)

/-- The state that a search starts in. -/
def Search.start (fn : CfgFunction) (src : Nat) : Search :=
  ⟨(List.replicate fn.blocks.length false).set src true, [src]⟩

/-- `expand` looks for one block. -/
theorem expand_eq (fn : CfgFunction) (blocked : Nat → Bool) (dst : Nat) (succs : List Nat)
    (s : Search) :
    expand fn blocked dst succs s = expandTo fn blocked (fun v => decide (v = dst)) succs s := by
  induction succs generalizing s with
  | nil => rfl
  | cons succ rest ih =>
      unfold expand expandTo
      simp only [ih, decide_eq_true_eq]

theorem searchStep_eq (fn : CfgFunction) (testPop : Bool) (blocked : Nat → Bool) (dst : Nat) :
    searchStep fn testPop blocked dst
      = searchStepTo fn testPop blocked (fun v => decide (v = dst)) := by
  funext s
  unfold searchStep searchStepTo
  cases s.stack with
  | nil => rfl
  | cons cur rest => simp only [expand_eq]

/-! ## §2. What a turn does. -/

/-- Is the block marked as seen? -/
def Search.Seen (s : Search) (v : Nat) : Prop := s.seen.getD v false = true

section Search

variable {fn : CfgFunction} {blocked goal : Nat → Bool} {src dst : Nat}

/-- What the inner loop does to the state when it meets no goal. -/
structure Expanded (fn : CfgFunction) (blocked goal : Nat → Bool) (succs : List Nat)
    (s s' : Search) : Prop where
  length : s'.seen.length = s.seen.length
  seen : ∀ v, s.Seen v → s'.Seen v
  stack : ∀ v ∈ s.stack, v ∈ s'.stack
  /-- What is newly seen is an open successor and waits in the work list. -/
  fresh : ∀ v, s'.Seen v → s.Seen v ∨ (v ∈ succs ∧ v < fn.blocks.length ∧ goal v = false
    ∧ blocked v = false ∧ v ∈ s'.stack)
  waiting : ∀ v ∈ s'.stack, v ∈ s.stack ∨ s'.Seen v
  covered : ∀ v ∈ succs, v < fn.blocks.length → goal v = false ∧ (blocked v = true ∨ s'.Seen v)
  measure : s'.seen.count false + s'.stack.length = s.seen.count false + s.stack.length

theorem Expanded.refl (s : Search) : Expanded fn blocked goal [] s s :=
  ⟨rfl, fun _ h => h, fun _ h => h, fun _ h => .inl h, fun _ h => .inl h,
    fun _ h => absurd h List.not_mem_nil, rfl⟩

/-- A successor that is not entered. -/
theorem Expanded.skip {s s' : Search} {succ : Nat} {rest : List Nat}
    (h : Expanded fn blocked goal rest s s')
    (hskip : succ < fn.blocks.length → goal succ = false ∧ (blocked succ = true ∨ s.Seen succ)) :
    Expanded fn blocked goal (succ :: rest) s s' := by
  refine ⟨h.length, h.seen, h.stack, fun v hv => ?_, h.waiting, fun v hv hlt => ?_, h.measure⟩
  · rcases h.fresh v hv with hs | ⟨hm, hrest⟩
    · exact .inl hs
    · exact .inr ⟨List.mem_cons_of_mem _ hm, hrest⟩
  · cases hv with
    | head =>
        obtain ⟨hne, hb | hs⟩ := hskip hlt
        · exact ⟨hne, .inl hb⟩
        · exact ⟨hne, .inr (h.seen _ hs)⟩
    | tail _ hv => exact h.covered v hv hlt

theorem seen_set {seen : List Bool} {succ v : Nat} (hlt : succ < seen.length) :
    (seen.set succ true).getD v false = true ↔ v = succ ∨ seen.getD v false = true := by
  simp only [List.getD_eq_getElem?_getD, List.getElem?_set]
  by_cases hv : succ = v
  · subst hv
    simp [hlt]
  · simp [hv, Ne.symm hv]

/-- A successor that is entered. -/
theorem Expanded.enter {s s' : Search} {succ : Nat} {rest : List Nat}
    (h : Expanded fn blocked goal rest ⟨s.seen.set succ true, succ :: s.stack⟩ s')
    (hlen : s.seen.length = fn.blocks.length) (hlt : succ < fn.blocks.length)
    (hnew : ¬ s.Seen succ) (hne : goal succ = false) (hopen : blocked succ = false) :
    Expanded fn blocked goal (succ :: rest) s s' := by
  have hlt' : succ < s.seen.length := by omega
  have hseen : s'.Seen succ := h.seen succ ((seen_set hlt').mpr (.inl rfl))
  have hstack : succ ∈ s'.stack := h.stack succ (List.mem_cons_self ..)
  refine ⟨?_, fun v hv => h.seen v ((seen_set hlt').mpr (.inr hv)),
    fun v hv => h.stack v (List.mem_cons_of_mem _ hv), fun v hv => ?_, fun v hv => ?_,
    fun v hv hvlt => ?_, ?_⟩
  · rw [h.length, List.length_set]
  · rcases h.fresh v hv with hs | ⟨hm, hrest⟩
    · rcases (seen_set hlt').mp hs with rfl | hs
      · exact .inr ⟨List.mem_cons_self .., hlt, hne, hopen, hstack⟩
      · exact .inl hs
    · exact .inr ⟨List.mem_cons_of_mem _ hm, hrest⟩
  · rcases h.waiting v hv with hv | hv
    · cases hv with
      | head => exact .inr hseen
      | tail _ hv => exact .inl hv
    · exact .inr hv
  · cases hv with
    | head => exact ⟨hne, .inr hseen⟩
    | tail _ hv => exact h.covered v hv hvlt
  · have hfalse : s.seen[succ] = false := by
      unfold Search.Seen at hnew
      rw [List.getD_eq_getElem?_getD, List.getElem?_eq_getElem hlt'] at hnew
      simpa using hnew
    have hpos : 0 < s.seen.count false := List.count_pos_iff.mpr (hfalse ▸ List.getElem_mem hlt')
    have hcount := List.count_set (a := true) (b := false) hlt'
    have hm := h.measure
    simp only [hfalse, List.length_cons] at hcount hm
    simp at hcount
    omega

/-- **The inner loop.** -/
theorem expandTo_spec : ∀ (succs : List Nat) (s : Search), s.seen.length = fn.blocks.length →
    (∀ v, s.Seen v → goal v = false) →
    (expandTo fn blocked goal succs s = .done true
        ∧ ∃ dst ∈ succs, dst < fn.blocks.length ∧ goal dst = true)
      ∨ ∃ s', expandTo fn blocked goal succs s = .more s' ∧ Expanded fn blocked goal succs s s' := by
  intro succs
  induction succs with
  | nil => intro s _ _; exact .inr ⟨s, rfl, Expanded.refl s⟩
  | cons succ rest ih =>
      intro s hlen hgoal
      have hskip : (succ < fn.blocks.length → goal succ = false ∧ (blocked succ = true ∨ s.Seen succ)) →
          (expandTo fn blocked goal rest s = .done true
            ∧ ∃ dst ∈ succ :: rest, dst < fn.blocks.length ∧ goal dst = true)
          ∨ ∃ s', expandTo fn blocked goal rest s = .more s'
            ∧ Expanded fn blocked goal (succ :: rest) s s' := by
        intro hs
        rcases ih s hlen hgoal with ⟨h1, dst, h2, h3⟩ | ⟨s', h1, h2⟩
        · exact .inl ⟨h1, dst, List.mem_cons_of_mem _ h2, h3⟩
        · exact .inr ⟨s', h1, h2.skip hs⟩
      unfold expandTo
      by_cases hout : succ ≥ fn.blocks.length
      · rw [if_pos (by simp [hout])]
        exact hskip fun hlt => absurd hlt (by omega)
      by_cases hseen : s.Seen succ
      · rw [if_pos (by simp only [Bool.or_eq_true]; exact .inr hseen)]
        exact hskip fun _ => ⟨hgoal succ hseen, .inr hseen⟩
      rw [if_neg (by
        simp only [Bool.or_eq_true, decide_eq_true_eq, not_or]
        exact ⟨hout, hseen⟩)]
      cases hmet : goal succ with
      | true =>
          rw [if_pos rfl]
          exact .inl ⟨rfl, succ, List.mem_cons_self .., by omega, hmet⟩
      | false =>
          rw [if_neg nofun]
          by_cases hb : blocked succ = true
          · rw [if_pos hb]
            exact hskip fun _ => ⟨hmet, .inl hb⟩
          · rw [if_neg hb]
            have hlt' : succ < s.seen.length := by omega
            have hgoal' : ∀ v, (s.seen.set succ true).getD v false = true → goal v = false := by
              intro v hv
              rcases (seen_set hlt').mp hv with rfl | hv
              · exact hmet
              · exact hgoal v hv
            rcases ih ⟨s.seen.set succ true, succ :: s.stack⟩ (by simpa using hlen) hgoal' with
              ⟨h1, dst, h2, h3⟩ | ⟨s', h1, h2⟩
            · exact .inl ⟨h1, dst, List.mem_cons_of_mem _ h2, h3⟩
            · exact .inr ⟨s', h1, h2.enter hlen (by omega) hseen hmet (by simpa using hb)⟩

/-- The invariant of the work-list loop. -/
structure SearchInv (fn : CfgFunction) (blocked goal : Nat → Bool) (src : Nat) (s : Search) :
    Prop where
  length : s.seen.length = fn.blocks.length
  source : s.Seen src
  missed : ∀ v, s.Seen v → goal v = false
  stack : ∀ v ∈ s.stack, s.Seen v
  reach : ∀ v, s.Seen v → Reach (Open fn blocked) src v
  /-- Closure, but for the blocks that still wait. -/
  closed : ∀ v, s.Seen v → v ∉ s.stack → ∀ w, fn.Edge v w →
    goal w = false ∧ (blocked w = true ∨ s.Seen w)

theorem searchInv_start (blocked : Nat → Bool) (hsrc : src < fn.blocks.length)
    (hmiss : goal src = false) : SearchInv fn blocked goal src (Search.start fn src) := by
  have hseen : ∀ v, (Search.start fn src).Seen v → v = src := by
    intro v hv
    rcases (seen_set (by simpa using hsrc)).mp hv with h | h
    · exact h
    · rw [List.getD_eq_getElem?_getD, List.getElem?_replicate] at h
      split at h <;> exact absurd h (by decide)
  have hself : (Search.start fn src).Seen src := (seen_set (by simpa using hsrc)).mpr (.inl rfl)
  refine ⟨by simp [Search.start], hself, fun v hv => hseen v hv ▸ hmiss, fun v hv => ?_,
    fun v hv => ?_, fun v hv hns => ?_⟩
  · rw [List.mem_singleton.mp hv]
    exact hself
  · rw [hseen v hv]
  · exact absurd (hseen v hv ▸ List.mem_singleton_self src) hns

/-- **One turn of the work-list loop.** -/
theorem searchStepTo_ok (testPop : Bool) (s : Search) (h : SearchInv fn blocked goal src s) :
    TurnOk (SearchInv fn blocked goal src) (fun s => s.seen.count false + s.stack.length)
      (fun r => r = true ↔ ∃ dst, goal dst = true ∧ Meets fn blocked src dst) s
      (searchStepTo fn testPop blocked goal s) := by
  unfold searchStepTo
  cases hs : s.stack with
  | nil =>
      -- Nothing waits: everything that can be entered is seen, and no goal hangs on any of it.
      have hnil : ∀ v, v ∉ s.stack := by
        intro v
        rw [hs]
        exact List.not_mem_nil
      have hall : ∀ u, Reach (Open fn blocked) src u → s.Seen u := by
        intro u hu
        induction hu with
        | refl => exact h.source
        | tail _ hstep ih =>
            obtain ⟨-, hb | hseen⟩ := h.closed _ ih (hnil _) _ hstep.1
            · rw [hstep.2] at hb
              exact absurd hb (by decide)
            · exact hseen
      refine ⟨fun hf => absurd hf (by decide), fun ⟨dst, hgoal, u, hu, he⟩ => ?_⟩
      have hmiss := (h.closed u (hall u hu) (hnil u) dst he).1
      rw [hmiss] at hgoal
      exact absurd hgoal (by decide)
  | cons cur rest =>
      have hcur : s.Seen cur := h.stack cur (hs ▸ List.mem_cons_self ..)
      simp only [h.missed cur hcur, Bool.and_false, Bool.false_eq_true, if_false]
      rcases expandTo_spec (fn.successors cur) ⟨s.seen, rest⟩ h.length h.missed with
        ⟨h1, dst, hmem, hlt, hgoal⟩ | ⟨s', h1, hx⟩
      · rw [h1]
        exact ⟨fun _ => ⟨dst, hgoal, cur, h.reach cur hcur, hmem, hlt⟩, fun _ => rfl⟩
      · rw [h1]
        have hseen : ∀ v, s.Seen v → s'.Seen v := hx.seen
        refine ⟨⟨hx.length.trans h.length, hseen src h.source, fun v hv => ?_, fun v hv => ?_,
          fun v hv => ?_, fun v hv hns w he => ?_⟩, ?_⟩
        · rcases hx.fresh v hv with hv | ⟨-, -, hmiss, -⟩
          · exact h.missed v hv
          · exact hmiss
        · rcases hx.waiting v hv with hv | hv
          · exact hseen v (h.stack v (hs ▸ List.mem_cons_of_mem _ hv))
          · exact hv
        · rcases hx.fresh v hv with hv | ⟨hmem, hlt, -, hopen, -⟩
          · exact h.reach v hv
          · exact (h.reach cur hcur).tail ⟨⟨hmem, hlt⟩, hopen⟩
        · by_cases hvc : v = cur
          · exact hx.covered w (hvc ▸ he.1) he.2
          · rcases hx.fresh v hv with hv | ⟨-, -, -, -, hst⟩
            · have hold : v ∉ s.stack := by
                rw [hs]
                intro hm
                cases hm with
                | head => exact hvc rfl
                | tail _ hm => exact hns (hx.stack v hm)
              obtain ⟨hw, hb | hw'⟩ := h.closed v hv hold w he
              · exact ⟨hw, .inl hb⟩
              · exact ⟨hw, .inr (hseen w hw')⟩
            · exact absurd hst hns
        · have hm := hx.measure
          simp only [hs, List.length_cons] at hm ⊢
          omega

/-- **The loop ends, and finds exactly the paths to a goal.** -/
theorem searchTo_spec (testPop : Bool) (hsrc : src < fn.blocks.length) (hmiss : goal src = false)
    {fuel : Nat} (hfuel : searchFuel fn ≤ fuel) :
    ∃ r, loop (searchStepTo fn testPop blocked goal) fuel (Search.start fn src) = some r
      ∧ (r = true ↔ ∃ dst, goal dst = true ∧ Meets fn blocked src dst) := by
  have hmeasure : (Search.start fn src).seen.count false + (Search.start fn src).stack.length
      < fuel := by
    have hcount := List.count_le_length (a := false)
      (l := (List.replicate fn.blocks.length false).set src true)
    simp only [List.length_set, List.length_replicate] at hcount
    unfold searchFuel at hfuel
    unfold Search.start
    simp only [List.length_singleton]
    omega
  exact loop_spec (searchStepTo_ok testPop) fuel _ (searchInv_start blocked hsrc hmiss) hmeasure

/-! ## §3. Paths to one block. -/

/-- **The search finds exactly the paths.** -/
theorem search_iff (testPop : Bool) (hsrc : src < fn.blocks.length) (hne : src ≠ dst) :
    search fn testPop blocked src dst = true ↔ Meets fn blocked src dst := by
  obtain ⟨r, hr, hiff⟩ := @searchTo_spec fn blocked (fun v => decide (v = dst)) src testPop hsrc
    (decide_eq_false hne) _ (Nat.le_refl _)
  unfold search
  rw [searchStep_eq]
  unfold Search.start at hr
  rw [hr, Option.getD_some, hiff]
  constructor
  · intro ⟨v, hv, hmeets⟩
    exact of_decide_eq_true hv ▸ hmeets
  · intro hmeets
    exact ⟨dst, decide_eq_true rfl, hmeets⟩

/-- Where nothing is blocked, what is met is reached. -/
theorem meets_reach (h : Meets fn (fun _ => false) src dst) : Reach fn.Edge src dst := by
  obtain ⟨u, hu, he⟩ := h
  exact (Relation.ReflTransGen.mono (fun _ _ h => h.1) _ _ hu).tail he

theorem reach_meets (hne : src ≠ dst) (h : Reach fn.Edge src dst) :
    Meets fn (fun _ => false) src dst := by
  rcases Relation.ReflTransGen.cases_tail h with h | ⟨u, hu, he⟩
  · exact absurd h.symm hne
  · exact ⟨u, Relation.ReflTransGen.mono (fun _ _ h => ⟨h, rfl⟩) _ _ hu, he⟩

/-- `reachable` is reachability. -/
theorem reachable_iff (hsrc : src < fn.blocks.length) (hdst : dst < fn.blocks.length) :
    reachable fn src dst = true ↔ Reach fn.Edge src dst := by
  unfold reachable
  rw [if_neg (by simp; omega)]
  by_cases heq : src = dst
  · rw [if_pos heq, heq]
    exact ⟨fun _ => Relation.ReflTransGen.refl, fun _ => rfl⟩
  · rw [if_neg heq, search_iff false hsrc heq]
    exact ⟨meets_reach, reach_meets heq⟩

end Search

end ShaderClippy.ControlFlow
