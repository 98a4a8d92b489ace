/-
  ShaderClippy.Lib.StateSets

  **WHERE AN AUTOMATON CAN BE AFTER THE EXECUTIONS OF A STRUCTURED PROGRAM.**

  `after` computes, from the states before a program, the states after it for
  each way it can end, construct by construct. For an iteration the states
  are saturated: a set of states can grow no more often than there are states
  (`saturate_closed`). Nothing is lost and nothing is added (`mem_after_iff`).

  So it is decidable whether some execution matches a pattern: stages one
  after another, each with a label it waits for and labels that may come
  before that (`passes_iff`).
-/
import Mathlib.Data.Finset.Union
import Mathlib.Data.Fintype.Card
import ShaderClippy.Lib.Structured

namespace Structured

variable {L Q : Type}

/-! ## §1. Runs of an automaton. -/

/-- The runs of an automaton that may have several next states. -/
inductive Run (step : Q → L → Finset Q) : Q → List L → Q → Prop where
  | nil {q : Q} : Run step q [] q
  | cons {q q' q'' : Q} {l : L} {tr : List L} : q' ∈ step q l → Run step q' tr q'' →
      Run step q (l :: tr) q''

section Runs

variable {step : Q → L → Finset Q} {q q' : Q} {tr ts : List L}

theorem run_nil : Run step q [] q' ↔ q = q' := by
  constructor
  · intro h
    cases h
    rfl
  · rintro rfl
    exact .nil

theorem run_cons {l : L} : Run step q (l :: tr) q' ↔ ∃ r ∈ step q l, Run step r tr q' := by
  constructor
  · intro h
    cases h with
    | cons hr h => exact ⟨_, hr, h⟩
  · intro ⟨r, hr, h⟩
    exact .cons hr h

theorem run_append : Run step q (tr ++ ts) q' ↔ ∃ r, Run step q tr r ∧ Run step r ts q' := by
  induction tr generalizing q with
  | nil =>
      constructor
      · exact fun h => ⟨q, .nil, h⟩
      · intro ⟨r, hr, h⟩
        rw [run_nil.mp hr]
        exact h
  | cons l tr ih =>
      rw [List.cons_append, run_cons]
      constructor
      · intro ⟨p, hp, h⟩
        have ⟨r, hr, h'⟩ := ih.mp h
        exact ⟨r, .cons hp hr, h'⟩
      · intro ⟨r, hr, h'⟩
        have ⟨p, hp, h⟩ := run_cons.mp hr
        exact ⟨p, hp, ih.mpr ⟨r, h, h'⟩⟩

end Runs

/-! ## §2. Saturation. -/

section Saturation

variable [DecidableEq Q]

/-- Add what `f` gives, `n` times. -/
def saturate (f : Finset Q → Finset Q) : Nat → Finset Q → Finset Q
  | 0, S => S
  | n + 1, S => saturate f n (S ∪ f S)

variable {f : Finset Q → Finset Q}

theorem subset_saturate (n : Nat) (S : Finset Q) : S ⊆ saturate f n S := by
  induction n generalizing S with
  | zero => exact Finset.Subset.refl S
  | succ n ih => exact Finset.Subset.trans Finset.subset_union_left (ih (S ∪ f S))

/-- A closed set stays. -/
theorem saturate_of_closed {S : Finset Q} (h : f S ⊆ S) (n : Nat) : saturate f n S = S := by
  induction n with
  | zero => rfl
  | succ n ih =>
      show saturate f n (S ∪ f S) = S
      rw [Finset.union_eq_left.mpr h]
      exact ih

/-- Until the set is closed, every turn adds a state. -/
theorem saturate_closed_or_grows (n : Nat) (S : Finset Q) :
    f (saturate f n S) ⊆ saturate f n S ∨ S.card + n ≤ (saturate f n S).card := by
  induction n generalizing S with
  | zero => exact .inr (Nat.le_refl _)
  | succ n ih =>
      by_cases hclosed : f S ⊆ S
      · left
        rw [saturate_of_closed hclosed]
        exact hclosed
      · have hgrow : S.card < (S ∪ f S).card := by
          refine Finset.card_lt_card (Finset.ssubset_iff_subset_ne.mpr
            ⟨Finset.subset_union_left, fun heq => hclosed ?_⟩)
          -- a set that is not closed grows in this turn
          have hadded : f S ⊆ S ∪ f S := Finset.subset_union_right
          rw [← heq] at hadded
          exact hadded
        rcases ih (S ∪ f S) with h | h
        · exact .inl h
        · right
          show S.card + (n + 1) ≤ (saturate f n (S ∪ f S)).card
          omega

/-- **One turn for every state is enough.** -/
theorem saturate_closed [Fintype Q] (S : Finset Q) :
    f (saturate f (Fintype.card Q) S) ⊆ saturate f (Fintype.card Q) S := by
  rcases @saturate_closed_or_grows Q _ f (Fintype.card Q) S with h | h
  · exact h
  · -- after so many turns nothing is left to add
    have hall : saturate f (Fintype.card Q) S = Finset.univ := by
      refine (Finset.card_eq_iff_eq_univ _).mp (Nat.le_antisymm (Finset.card_le_univ _) ?_)
      omega
    rw [hall]
    exact Finset.subset_univ _

/-- What holds of `S` and is kept by `f` holds of everything added. -/
theorem saturate_induction {P : Q → Prop} (hf : ∀ X : Finset Q, (∀ q ∈ X, P q) → ∀ q ∈ f X, P q)
    (n : Nat) {S : Finset Q} (hS : ∀ q ∈ S, P q) : ∀ q ∈ saturate f n S, P q := by
  induction n generalizing S with
  | zero => exact hS
  | succ n ih =>
      refine ih fun q hq => ?_
      rcases Finset.mem_union.mp hq with hq | hq
      · exact hS q hq
      · exact hf S hS q hq

end Saturation

/-! ## §3. The states after a program. -/

section After

variable [DecidableEq Q] [Fintype Q] (step : Q → L → Finset Q)

/-- The states after the executions of a program that end in this way. -/
def after : Prog L → Finset Q → Outcome → Finset Q
  | .skip, S, o => if o = .normal ∨ o = .stopped then S else ∅
  | .point l, S, o =>
      match o with
      | .normal => S.biUnion fun q => step q l
      | .stopped => S
      | .jump _ => ∅
  | .jump j, S, o => if o = .jump j ∨ o = .stopped then S else ∅
  | .seq p q, S, o =>
      if o = .normal then after q (after p S .normal) .normal
      else after p S o ∪ after q (after p S .normal) o
  | .choice p q, S, o => after p S o ∪ after q S o
  | .iter p, S, o =>
      let turns := saturate (fun X => after p X .normal) (Fintype.card Q) S
      if o = .normal then turns else after p turns o
  | .catching j p, S, o =>
      if o = .normal then after p S .normal ∪ after p S (.jump j)
      else if o = .jump j then ∅ else after p S o

variable {step}

/-- One more turn, completed or not. -/
theorem exec_iter_more {p : Prog L} {tr ts : List L} {o : Outcome} (h : Exec (.iter p) tr .normal)
    (hmore : Exec p ts o) : Exec (.iter p) (tr ++ ts) o := by
  -- over the execution; only those of the iteration itself remain
  generalize hprog : Prog.iter p = prog at h
  generalize hnormal : Outcome.normal = o' at h
  induction h with
  | iterDone =>
      cases hprog
      by_cases ho : o = .normal
      · subst ho
        rw [List.nil_append, ← List.append_nil ts]
        exact .iterMore hmore .iterDone
      · exact .iterLeave hmore ho
  | iterMore hturn _ _ ih =>
      cases hprog
      rw [List.append_assoc]
      exact .iterMore hturn (ih rfl hnormal)
  | iterLeave _ hne _ => exact absurd hnormal.symm hne
  | stop => exact absurd hnormal nofun
  | _ => cases hprog

/-- Some execution ends in this way and leads from a state of `S` to `q`. -/
def Leads (step : Q → L → Finset Q) (p : Prog L) (S : Finset Q) (o : Outcome) (q : Q) : Prop :=
  ∃ q₀ ∈ S, ∃ tr, Exec p tr o ∧ Run step q₀ tr q

theorem mem_after_skip {S : Finset Q} {o : Outcome} {q : Q} :
    q ∈ after step .skip S o ↔ Leads step .skip S o q := by
  unfold after
  constructor
  · intro h
    split at h
    next ho =>
      -- nothing is executed, to the end or not
      refine ⟨q, h, [], ?_, .nil⟩
      rcases ho with rfl | rfl
      · exact .skip
      · exact .stop _
    next => exact absurd h (Finset.notMem_empty q)
  · intro ⟨q₀, hq₀, tr, hexec, hrun⟩
    cases hexec with
    | stop =>
        rw [if_pos (.inr rfl), ← run_nil.mp hrun]
        exact hq₀
    | skip =>
        rw [if_pos (.inl rfl), ← run_nil.mp hrun]
        exact hq₀

theorem mem_after_point {l : L} {S : Finset Q} {o : Outcome} {q : Q} :
    q ∈ after step (.point l) S o ↔ Leads step (.point l) S o q := by
  constructor
  · intro h
    cases o with
    | normal =>
        obtain ⟨q₀, hq₀, hq⟩ := Finset.mem_biUnion.mp h
        exact ⟨q₀, hq₀, [l], .point l, .cons hq .nil⟩
    | stopped => exact ⟨q, h, [], .stop _, .nil⟩
    | jump j => exact absurd h (Finset.notMem_empty q)
  · intro ⟨q₀, hq₀, tr, hexec, hrun⟩
    cases hexec with
    | stop =>
        rw [← run_nil.mp hrun]
        exact hq₀
    | point =>
        have ⟨r, hr, hrest⟩ := run_cons.mp hrun
        rw [← run_nil.mp hrest]
        exact Finset.mem_biUnion.mpr ⟨q₀, hq₀, hr⟩

theorem mem_after_jump {j : Jump} {S : Finset Q} {o : Outcome} {q : Q} :
    q ∈ after step (.jump j) S o ↔ Leads step (.jump j) S o q := by
  unfold after
  constructor
  · intro h
    split at h
    next ho =>
      refine ⟨q, h, [], ?_, .nil⟩
      rcases ho with rfl | rfl
      · exact .jump j
      · exact .stop _
    next => exact absurd h (Finset.notMem_empty q)
  · intro ⟨q₀, hq₀, tr, hexec, hrun⟩
    cases hexec with
    | stop =>
        rw [if_pos (.inr rfl), ← run_nil.mp hrun]
        exact hq₀
    | jump =>
        rw [if_pos (.inl rfl), ← run_nil.mp hrun]
        exact hq₀

section Constructs

variable {p p' : Prog L}
  (hp : ∀ {S : Finset Q} {o : Outcome} {q : Q}, q ∈ after step p S o ↔ Leads step p S o q)
  (hp' : ∀ {S : Finset Q} {o : Outcome} {q : Q}, q ∈ after step p' S o ↔ Leads step p' S o q)

include hp hp'

/-- The second part starts where the first has led. -/
theorem leads_of_after {S : Finset Q} {o : Outcome} {q : Q}
    (h : q ∈ after step p' (after step p S .normal) o) : Leads step (.seq p p') S o q := by
  obtain ⟨r, hr, ts, hts, hrun⟩ := hp'.mp h
  obtain ⟨q₀, hq₀, tr, htr, hrun₀⟩ := hp.mp hr
  exact ⟨q₀, hq₀, tr ++ ts, .seqNormal htr hts, run_append.mpr ⟨r, hrun₀, hrun⟩⟩

theorem mem_after_seq {S : Finset Q} {o : Outcome} {q : Q} :
    q ∈ after step (.seq p p') S o ↔ Leads step (.seq p p') S o q := by
  rw [after]
  constructor
  · intro h
    split at h
    next ho =>
      subst ho
      exact leads_of_after hp hp' h
    next ho =>
      rcases Finset.mem_union.mp h with h | h
      · obtain ⟨q₀, hq₀, tr, htr, hrun⟩ := hp.mp h
        exact ⟨q₀, hq₀, tr, .seqLeave htr ho, hrun⟩
      · exact leads_of_after hp hp' h
  · intro ⟨q₀, hq₀, tr, hexec, hrun⟩
    have hfirst : ∀ {o : Outcome}, Exec p tr o → q ∈ after step p S o :=
      fun htr => hp.mpr ⟨q₀, hq₀, tr, htr, hrun⟩
    cases hexec with
    | stop =>
        rw [if_neg nofun]
        exact Finset.mem_union_left _ (hfirst (.stop p))
    | seqNormal htr hts =>
        obtain ⟨r, hrun₀, hrun₁⟩ := run_append.mp hrun
        have hsecond : q ∈ after step p' (after step p S .normal) o :=
          hp'.mpr ⟨r, hp.mpr ⟨q₀, hq₀, _, htr, hrun₀⟩, _, hts, hrun₁⟩
        split
        next ho =>
          subst ho
          exact hsecond
        next => exact Finset.mem_union_right _ hsecond
    | seqLeave htr hne =>
        rw [if_neg hne]
        exact Finset.mem_union_left _ (hfirst htr)

theorem mem_after_choice {S : Finset Q} {o : Outcome} {q : Q} :
    q ∈ after step (.choice p p') S o ↔ Leads step (.choice p p') S o q := by
  rw [after, Finset.mem_union, hp, hp']
  constructor
  · rintro (⟨q₀, hq₀, tr, htr, hrun⟩ | ⟨q₀, hq₀, tr, htr, hrun⟩)
    · exact ⟨q₀, hq₀, tr, .left htr, hrun⟩
    · exact ⟨q₀, hq₀, tr, .right htr, hrun⟩
  · intro ⟨q₀, hq₀, tr, hexec, hrun⟩
    cases hexec with
    | stop => exact .inl ⟨q₀, hq₀, [], .stop p, hrun⟩
    | left htr => exact .inl ⟨q₀, hq₀, tr, htr, hrun⟩
    | right htr => exact .inr ⟨q₀, hq₀, tr, htr, hrun⟩

omit hp'

/-- The saturated states are ones that turns lead to. -/
theorem leads_of_turns {S : Finset Q} (n : Nat) :
    ∀ q ∈ saturate (fun X => after step p X .normal) n S, Leads step (.iter p) S .normal q := by
  refine saturate_induction (fun X hX q hq => ?_) n fun q hq => ⟨q, hq, [], .iterDone, .nil⟩
  obtain ⟨r, hr, ts, hts, hrun⟩ := hp.mp hq
  obtain ⟨q₀, hq₀, tr, htr, hrun₀⟩ := hX r hr
  exact ⟨q₀, hq₀, tr ++ ts, exec_iter_more htr hts, run_append.mpr ⟨r, hrun₀, hrun⟩⟩

/-- From a closed set, turns lead nowhere else. -/
theorem mem_of_iter {X : Finset Q} (hclosed : after step p X .normal ⊆ X) {prog : Prog L}
    {tr : List L} {o : Outcome} (hexec : Exec prog tr o) (hprog : prog = .iter p) {q₀ q : Q}
    (hq₀ : q₀ ∈ X) (hrun : Run step q₀ tr q) :
    (o = .normal → q ∈ X) ∧ (o ≠ .normal → q ∈ after step p X o) := by
  induction hexec generalizing q₀ with
  | stop =>
      refine ⟨nofun, fun _ => hp.mpr ⟨q₀, hq₀, [], .stop p, hrun⟩⟩
  | iterDone =>
      rw [← run_nil.mp hrun]
      exact ⟨fun _ => hq₀, fun hne => absurd rfl hne⟩
  | iterMore htr _ _ ih =>
      cases hprog
      -- the first turn stays in the closed set, and the others start there
      obtain ⟨r, hrun₀, hrun₁⟩ := run_append.mp hrun
      exact ih rfl (hclosed (hp.mpr ⟨q₀, hq₀, _, htr, hrun₀⟩)) hrun₁
  | iterLeave htr hne _ =>
      cases hprog
      exact ⟨fun ho => absurd ho hne, fun _ => hp.mpr ⟨q₀, hq₀, _, htr, hrun⟩⟩
  | _ => cases hprog

theorem mem_after_iter {S : Finset Q} {o : Outcome} {q : Q} :
    q ∈ after step (.iter p) S o ↔ Leads step (.iter p) S o q := by
  rw [after]
  have hturns := leads_of_turns hp (S := S) (Fintype.card Q)
  constructor
  · intro h
    split at h
    next ho =>
      subst ho
      exact hturns q h
    next ho =>
      obtain ⟨r, hr, ts, hts, hrun⟩ := hp.mp h
      obtain ⟨q₀, hq₀, tr, htr, hrun₀⟩ := hturns r hr
      exact ⟨q₀, hq₀, tr ++ ts, exec_iter_more htr hts, run_append.mpr ⟨r, hrun₀, hrun⟩⟩
  · intro ⟨q₀, hq₀, tr, hexec, hrun⟩
    -- the saturated set is closed, so no execution leaves it
    have hclosed := @saturate_closed Q _ (fun X => after step p X .normal) _ S
    have ⟨hdone, hleft⟩ := mem_of_iter hp hclosed hexec rfl (subset_saturate _ S hq₀) hrun
    split
    next ho => exact hdone ho
    next ho => exact hleft ho

theorem mem_after_catching {j : Jump} {S : Finset Q} {o : Outcome} {q : Q} :
    q ∈ after step (.catching j p) S o ↔ Leads step (.catching j p) S o q := by
  rw [after]
  constructor
  · intro h
    split at h
    next ho =>
      subst ho
      rcases Finset.mem_union.mp h with h | h
      · obtain ⟨q₀, hq₀, tr, htr, hrun⟩ := hp.mp h
        exact ⟨q₀, hq₀, tr, .through htr nofun, hrun⟩
      · obtain ⟨q₀, hq₀, tr, htr, hrun⟩ := hp.mp h
        exact ⟨q₀, hq₀, tr, .caught htr, hrun⟩
    next =>
      split at h
      next => exact absurd h (Finset.notMem_empty q)
      next hj =>
        obtain ⟨q₀, hq₀, tr, htr, hrun⟩ := hp.mp h
        exact ⟨q₀, hq₀, tr, .through htr hj, hrun⟩
  · intro ⟨q₀, hq₀, tr, hexec, hrun⟩
    cases hexec with
    | stop =>
        rw [if_neg nofun, if_neg nofun]
        exact hp.mpr ⟨q₀, hq₀, [], .stop p, hrun⟩
    | caught htr =>
        rw [if_pos rfl]
        exact Finset.mem_union_right _ (hp.mpr ⟨q₀, hq₀, tr, htr, hrun⟩)
    | through htr hne =>
        have h := hp.mpr ⟨q₀, hq₀, tr, htr, hrun⟩
        rw [if_neg hne]
        split
        next ho =>
          subst ho
          exact Finset.mem_union_left _ h
        next => exact h

end Constructs

/-- **Exactly the states that executions lead to.** -/
theorem mem_after_iff (p : Prog L) : ∀ {S : Finset Q} {o : Outcome} {q : Q},
    q ∈ after step p S o ↔ Leads step p S o q := by
  induction p with
  | skip => exact mem_after_skip
  | point l => exact mem_after_point
  | jump j => exact mem_after_jump
  | seq p p' hp hp' => exact mem_after_seq hp hp'
  | choice p p' hp hp' => exact mem_after_choice hp hp'
  | iter p hp => exact mem_after_iter hp
  | catching j p hp => exact mem_after_catching hp

end After

/-! ## §4. Patterns. -/

/-- A stage of a pattern: the labels that may pass, and those that end it. -/
structure Stage (L : Type) where
  gap : L → Bool
  goal : L → Bool

/-- A trace begins with the stages, one after another. -/
def Matches : List (Stage L) → List L → Prop
  | [], _ => True
  | s :: ss, tr => ∃ mid l rest, tr = mid ++ l :: rest ∧ (∀ x ∈ mid, s.gap x = true)
      ∧ s.goal l = true ∧ Matches ss rest

theorem not_matches_nil {s : Stage L} {ss : List (Stage L)} : ¬ Matches (s :: ss) [] := by
  intro ⟨mid, l, rest, htr, _⟩
  exact absurd htr.symm (by simp)

theorem matches_cons {s : Stage L} {ss : List (Stage L)} {l : L} {tr : List L} :
    Matches (s :: ss) (l :: tr) ↔ s.goal l = true ∧ Matches ss tr
      ∨ s.gap l = true ∧ Matches (s :: ss) tr := by
  constructor
  · intro ⟨mid, l', rest, htr, hgap, hgoal, hrest⟩
    cases mid with
    | nil =>
        obtain ⟨rfl, rfl⟩ := List.cons.inj htr
        exact .inl ⟨hgoal, hrest⟩
    | cons m mid =>
        obtain ⟨rfl, rfl⟩ := List.cons.inj htr
        exact .inr ⟨hgap l (List.mem_cons_self ..),
          mid, l', rest, rfl, fun x hx => hgap x (List.mem_cons_of_mem _ hx), hgoal, hrest⟩
  · rintro (⟨hgoal, hrest⟩ | ⟨hgap, mid, l', rest, rfl, hgaps, hgoal, hrest⟩)
    · exact ⟨[], l, tr, rfl, fun x hx => absurd hx List.not_mem_nil, hgoal, hrest⟩
    · refine ⟨l :: mid, l', rest, rfl, fun x hx => ?_, hgoal, hrest⟩
      rcases List.mem_cons.mp hx with rfl | hx
      · exact hgap
      · exact hgaps x hx

/-- The automaton of a pattern counts the stages that are over. -/
def stageStep (ss : List (Stage L)) (i : Fin (ss.length + 1)) (l : L) :
    Finset (Fin (ss.length + 1)) :=
  if h : i.val < ss.length then
    (if (ss[i.val]).gap l then {i} else ∅)
      ∪ (if (ss[i.val]).goal l then {⟨i.val + 1, Nat.succ_lt_succ h⟩} else ∅)
  else {i}

/-- **The automaton comes to its last state along the traces that match.** -/
theorem run_stageStep {ss : List (Stage L)} (tr : List L) : ∀ i : Fin (ss.length + 1),
    Run (stageStep ss) i tr (Fin.last ss.length) ↔ Matches (ss.drop i.val) tr := by
  -- the last state is the one behind all stages
  have hlast : ∀ i : Fin (ss.length + 1), ¬ i.val < ss.length → i = Fin.last ss.length := by
    intro i h
    have hi := i.isLt
    exact Fin.ext (by show i.val = ss.length; omega)
  induction tr with
  | nil =>
      intro i
      rw [run_nil]
      by_cases h : i.val < ss.length
      · rw [List.drop_eq_getElem_cons h]
        constructor
        · rintro rfl
          exact absurd h (Nat.lt_irrefl _)
        · exact fun hm => absurd hm not_matches_nil
      · rw [List.drop_of_length_le (by omega)]
        exact ⟨fun _ => trivial, fun _ => hlast i h⟩
  | cons l tr ih =>
      intro i
      rw [run_cons]
      by_cases h : i.val < ss.length
      · rw [List.drop_eq_getElem_cons h, matches_cons, ← List.drop_eq_getElem_cons h]
        unfold stageStep
        rw [dif_pos h]
        constructor
        · intro ⟨r, hr, hrun⟩
          rcases Finset.mem_union.mp hr with hr | hr
          · split at hr
            next hgap =>
              rw [Finset.mem_singleton.mp hr] at hrun
              exact .inr ⟨hgap, (ih i).mp hrun⟩
            next => exact absurd hr (Finset.notMem_empty r)
          · split at hr
            next hgoal =>
              rw [Finset.mem_singleton.mp hr] at hrun
              exact .inl ⟨hgoal, (ih _).mp hrun⟩
            next => exact absurd hr (Finset.notMem_empty r)
        · rintro (⟨hgoal, hrest⟩ | ⟨hgap, hrest⟩)
          · refine ⟨⟨i.val + 1, Nat.succ_lt_succ h⟩, Finset.mem_union_right _ ?_, (ih _).mpr hrest⟩
            rw [if_pos hgoal]
            exact Finset.mem_singleton_self _
          · refine ⟨i, Finset.mem_union_left _ ?_, (ih i).mpr hrest⟩
            rw [if_pos hgap]
            exact Finset.mem_singleton_self _
      · rw [List.drop_of_length_le (by omega)]
        refine ⟨fun _ => trivial, fun _ => ⟨i, ?_, (ih i).mpr ?_⟩⟩
        · unfold stageStep
          rw [dif_neg h]
          exact Finset.mem_singleton_self i
        · rw [List.drop_of_length_le (by omega)]
          trivial

/-- All ways to end. -/
def outcomes : List Outcome := [.normal, .stopped, .jump .brk, .jump .cont, .jump .ret]

theorem mem_outcomes (o : Outcome) : o ∈ outcomes := by
  cases o with
  | jump j => cases j <;> decide
  | _ => decide

/-- Does some execution match the pattern? -/
def passes (ss : List (Stage L)) (p : Prog L) : Bool :=
  outcomes.any fun o => decide (Fin.last ss.length ∈ after (stageStep ss) p {0} o)

/-- **`passes` decides it.** -/
theorem passes_iff {ss : List (Stage L)} {p : Prog L} :
    passes ss p = true ↔ ∃ tr o, Exec p tr o ∧ Matches ss tr := by
  have hstart : ∀ tr, Run (stageStep ss) 0 tr (Fin.last ss.length) ↔ Matches ss tr :=
    fun tr => run_stageStep tr 0
  unfold passes
  rw [List.any_eq_true]
  constructor
  · intro ⟨o, _, ho⟩
    obtain ⟨q₀, hq₀, tr, hexec, hrun⟩ := (mem_after_iff p).mp (of_decide_eq_true ho)
    rw [Finset.mem_singleton.mp hq₀] at hrun
    exact ⟨tr, o, hexec, (hstart tr).mp hrun⟩
  · intro ⟨tr, o, hexec, hmatch⟩
    refine ⟨o, mem_outcomes o, decide_eq_true ((mem_after_iff p).mpr ?_)⟩
    exact ⟨0, Finset.mem_singleton_self _, tr, hexec, (hstart tr).mpr hmatch⟩

end Structured
