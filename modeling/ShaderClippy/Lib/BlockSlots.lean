/-
  ShaderClippy.Lib.BlockSlots

  **A SLOT FOR EACH OPEN BLOCK.**

  A scan keeps, for every block it is in, the last thing that was put there: a
  new block begins with an empty slot, the end of a block empties its slot, and a
  mark of its own empties the innermost one. What is put on something else hands
  that out.

  So a thing is handed out exactly if, in the same block and with nothing but
  complete blocks and silent marks in between, another one is put behind it
  (`mem_handed_iff`). Brackets that do not match change nothing about this.
-/
import ShaderClippy.Lib.Brackets

namespace BlockSlots

open ShaderClippy.Brackets (Balanced Closes Matching closes_zero closes_nil closes_other
  closes_closing closes_opening)

/-! ## §1. Marks and slots. -/

inductive Mark (W : Type) where
  | opening
  | closing
  | clear
  | put (w : W)
  | silent
  deriving DecidableEq, Repr

variable {W : Type}

/-- Marks as letters of a bracket word. -/
def Mark.kind : Mark W → ShaderClippy.Brackets.Kind
  | .opening => .opening
  | .closing => .closing
  | _ => .other

/-- The slots behind a mark, innermost first. There is always one. -/
def next : Mark W → List (Option W) → List (Option W)
  | .opening, slots => none :: slots
  | .closing, _ :: o :: slots => o :: slots
  | .closing, _ => [none]
  | .clear, slots => none :: slots.tail
  | .put w, slots => some w :: slots.tail
  | .silent, slots => slots

/-- What a mark hands out. -/
def output : Mark W → List (Option W) → List W
  | .put _, some w :: _ => [w]
  | _, _ => []

/-- What is handed out behind these slots. -/
def handed : List (Option W) → List (Mark W) → List W
  | _, [] => []
  | slots, m :: ms => output m slots ++ handed (next m slots) ms

/-! ## §2. Things of one block. -/

/-- Complete blocks and silent marks. -/
inductive Blocks : List (Mark W) → Prop
  | nil : Blocks []
  | silent {ms : List (Mark W)} : Blocks ms → Blocks (.silent :: ms)
  | block {inner ms : List (Mark W)} : Balanced Mark.kind inner → Blocks ms →
      Blocks (.opening :: (inner ++ .closing :: ms))

/-- The next thing put in the block. -/
def PutNext (ms : List (Mark W)) : Prop :=
  ∃ between w rest, ms = between ++ .put w :: rest ∧ Blocks between

/-- One thing, and the next one put in its block. -/
def Consecutive (ms : List (Mark W)) (w w' : W) : Prop :=
  ∃ before between rest, ms = before ++ .put w :: (between ++ .put w' :: rest) ∧ Blocks between

/-- The next thing put behind the ends of `k` blocks. -/
def Leads (k : Nat) (ms : List (Mark W)) : Prop := ∃ rest, Closes Mark.kind k ms rest ∧ PutNext rest

theorem leads_zero {ms : List (Mark W)} : Leads 0 ms ↔ PutNext ms := by
  simp only [Leads, closes_zero, exists_eq_left']

theorem not_leads_nil (k : Nat) : ¬ Leads k ([] : List (Mark W)) := by
  rintro ⟨rest, hcloses, between, w, rest', hrest, -⟩
  cases k with
  | zero =>
      rw [← closes_zero.mp hcloses] at hrest
      exact absurd hrest.symm (by simp)
  | succ k => exact closes_nil hcloses

theorem leads_succ_other {m : Mark W} (hm : m.kind = .other) {k : Nat} {ms : List (Mark W)} :
    Leads (k + 1) (m :: ms) ↔ Leads (k + 1) ms :=
  exists_congr fun _ => and_congr_left' (closes_other hm)

theorem putNext_put (w : W) (ms : List (Mark W)) : PutNext (.put w :: ms) := ⟨[], w, ms, rfl, .nil⟩

theorem not_putNext_clear (ms : List (Mark W)) : ¬ PutNext (.clear :: ms) := by
  rintro ⟨between, w, rest, hms, hblocks⟩
  cases hblocks with
  | nil => cases hms
  | silent => cases hms
  | block => cases hms

theorem not_putNext_closing (ms : List (Mark W)) : ¬ PutNext (.closing :: ms) := by
  rintro ⟨between, w, rest, hms, hblocks⟩
  cases hblocks with
  | nil => cases hms
  | silent => cases hms
  | block => cases hms

theorem putNext_silent {ms : List (Mark W)} : PutNext (.silent :: ms) ↔ PutNext ms := by
  constructor
  · rintro ⟨between, w, rest, hms, hblocks⟩
    cases hblocks with
    | nil => cases hms
    | @silent between hblocks =>
        cases hms
        exact ⟨between, w, rest, rfl, hblocks⟩
    | block => cases hms
  · rintro ⟨between, w, rest, rfl, hblocks⟩
    exact ⟨.silent :: between, w, rest, rfl, .silent hblocks⟩

/-- A block that is entered has to be left. -/
theorem putNext_opening {ms : List (Mark W)} : PutNext (.opening :: ms) ↔ Leads 1 ms := by
  constructor
  · rintro ⟨between, w, rest, hms, hblocks⟩
    cases hblocks with
    | nil => cases hms
    | silent => cases hms
    | @block inner between hinner hblocks =>
        cases hms
        exact ⟨between ++ .put w :: rest,
          .succ ⟨List.append_assoc inner (.closing :: between) _, hinner, rfl⟩ (.zero _),
          between, w, rest, rfl, hblocks⟩
  · rintro ⟨rest, hcloses, between, w, rest', hrest, hblocks⟩
    cases hcloses with
    | @succ _ _ inner mid _ close hmatch hmid =>
        obtain ⟨hms, hinner, hclose⟩ := hmatch
        have hmid' := closes_zero.mp hmid
        have hclosing : close = .closing := by cases close <;> first | rfl | cases hclose
        subst hms hmid' hclosing hrest
        refine ⟨.opening :: (inner ++ .closing :: between), w, rest', ?_, .block hinner hblocks⟩
        rw [List.cons_append, List.append_assoc, List.cons_append]

theorem leads_opening {k : Nat} {ms : List (Mark W)} : Leads k (.opening :: ms) ↔ Leads (k + 1) ms := by
  cases k with
  | zero => exact leads_zero.trans putNext_opening
  | succ k => exact exists_congr fun _ => and_congr_left' (closes_opening rfl)

theorem leads_closing {k : Nat} {ms : List (Mark W)} : Leads (k + 1) (.closing :: ms) ↔ Leads k ms :=
  exists_congr fun _ => and_congr_left' (closes_closing rfl)

theorem leads_silent {k : Nat} {ms : List (Mark W)} : Leads k (.silent :: ms) ↔ Leads k ms := by
  cases k with
  | zero => exact leads_zero.trans (putNext_silent.trans leads_zero.symm)
  | succ k => exact leads_succ_other rfl

theorem consecutive_nil {w w' : W} : ¬ Consecutive [] w w' := by
  rintro ⟨before, between, rest, hms, -⟩
  exact absurd hms.symm (by simp)

/-- The first of the two is the first mark, or behind it. -/
theorem consecutive_cons {m : Mark W} {ms : List (Mark W)} {w : W} :
    (∃ w', Consecutive (m :: ms) w w') ↔ (m = .put w ∧ PutNext ms) ∨ ∃ w', Consecutive ms w w' := by
  constructor
  · rintro ⟨w', before, between, rest, hms, hblocks⟩
    cases before with
    | nil =>
        cases hms
        exact Or.inl ⟨rfl, between, w', rest, rfl, hblocks⟩
    | cons m' before =>
        cases hms
        exact Or.inr ⟨w', before, between, rest, rfl, hblocks⟩
  · rintro (⟨rfl, between, w', rest, rfl, hblocks⟩ | ⟨w', before, between, rest, rfl, hblocks⟩)
    · exact ⟨w', [], between, rest, rfl, hblocks⟩
    · exact ⟨w', m :: before, between, rest, rfl, hblocks⟩

/-! ## §3. What is handed out. -/

/-- A slot holds the thing, and behind the blocks inside of it another one is put. -/
def Held (slots : List (Option W)) (ms : List (Mark W)) (w : W) : Prop :=
  ∃ k : Nat, slots[k]? = some (some w) ∧ Leads k ms

theorem held_cons {o : Option W} {slots : List (Option W)} {ms : List (Mark W)} {w : W} :
    Held (o :: slots) ms w ↔ (o = some w ∧ PutNext ms) ∨ ∃ k : Nat, slots[k]? = some (some w) ∧ Leads (k + 1) ms := by
  constructor
  · rintro ⟨k, hk, hleads⟩
    cases k with
    | zero => exact Or.inl ⟨Option.some.inj hk, leads_zero.mp hleads⟩
    | succ k => exact Or.inr ⟨k, hk, hleads⟩
  · rintro (⟨rfl, hput⟩ | ⟨k, hk, hleads⟩)
    · exact ⟨0, rfl, leads_zero.mpr hput⟩
    · exact ⟨k + 1, hk, hleads⟩

/-- One mark: what is held in front of it is handed out by it or held behind it,
and what it puts is held behind it. -/
theorem held_step {slots : List (Option W)} (hne : slots ≠ []) (m : Mark W) (ms : List (Mark W)) (w : W) :
    (w ∈ output m slots ∨ Held (next m slots) ms w) ↔
      (Held slots (m :: ms) w ∨ (m = .put w ∧ PutNext ms)) := by
  obtain ⟨o, slots, rfl⟩ := List.exists_cons_of_ne_nil hne
  cases m with
  | opening =>
      have hout : w ∉ output .opening (o :: slots) := List.not_mem_nil
      have hmark : ¬ ((.opening : Mark W) = .put w ∧ PutNext ms) := by rintro ⟨⟨⟩, -⟩
      have hnone : ¬ ((none : Option W) = some w ∧ PutNext ms) := by rintro ⟨⟨⟩, -⟩
      rw [or_iff_right hout, or_iff_left hmark]
      show Held (none :: o :: slots) ms w ↔ _
      rw [held_cons, or_iff_right hnone]
      exact exists_congr fun k => and_congr_right fun _ => leads_opening.symm
  | closing =>
      have hout : w ∉ output .closing (o :: slots) := List.not_mem_nil
      have hmark : ¬ ((.closing : Mark W) = .put w ∧ PutNext ms) := by rintro ⟨⟨⟩, -⟩
      have hend : ¬ (o = some w ∧ PutNext (.closing :: ms)) := fun h => not_putNext_closing ms h.2
      rw [or_iff_right hout, or_iff_left hmark, held_cons, or_iff_right hend]
      cases slots with
      | nil =>
          -- the outermost block goes on with an empty slot
          show Held [none] ms w ↔ _
          constructor
          · rintro ⟨k, hk, -⟩
            cases k with
            | zero => cases hk
            | succ k => cases hk
          · rintro ⟨k, hk, -⟩
            cases hk
      | cons o' slots => exact exists_congr fun k => and_congr_right fun _ => leads_closing.symm
  | clear =>
      have hout : w ∉ output .clear (o :: slots) := List.not_mem_nil
      have hmark : ¬ ((.clear : Mark W) = .put w ∧ PutNext ms) := by rintro ⟨⟨⟩, -⟩
      have hnone : ¬ ((none : Option W) = some w ∧ PutNext ms) := by rintro ⟨⟨⟩, -⟩
      have hend : ¬ (o = some w ∧ PutNext (.clear :: ms)) := fun h => not_putNext_clear ms h.2
      rw [or_iff_right hout, or_iff_left hmark]
      show Held (none :: slots) ms w ↔ _
      rw [held_cons, held_cons, or_iff_right hnone, or_iff_right hend]
      exact exists_congr fun k => and_congr_right fun _ => (leads_succ_other rfl).symm
  | put w₀ =>
      have hout : w ∈ output (.put w₀) (o :: slots) ↔ o = some w := by
        cases o with
        | none => exact iff_of_false List.not_mem_nil (by rintro ⟨⟩)
        | some w₁ => rw [output, List.mem_singleton, Option.some.injEq, eq_comm]
      have hdeep : (∃ k : Nat, slots[k]? = some (some w) ∧ Leads (k + 1) (.put w₀ :: ms))
          ↔ ∃ k : Nat, slots[k]? = some (some w) ∧ Leads (k + 1) ms :=
        exists_congr fun k => and_congr_right fun _ => leads_succ_other rfl
      show (_ ∨ Held (some w₀ :: slots) ms w) ↔ _
      rw [hout, held_cons, held_cons, hdeep, and_iff_left (putNext_put w₀ ms), Option.some.injEq,
        Mark.put.injEq, or_assoc]
      exact or_congr_right or_comm
  | silent =>
      have hout : w ∉ output .silent (o :: slots) := List.not_mem_nil
      have hmark : ¬ ((.silent : Mark W) = .put w ∧ PutNext ms) := by rintro ⟨⟨⟩, -⟩
      rw [or_iff_right hout, or_iff_left hmark]
      exact exists_congr fun k => and_congr_right fun _ => leads_silent.symm

theorem next_ne_nil (m : Mark W) {slots : List (Option W)} (hne : slots ≠ []) : next m slots ≠ [] := by
  unfold next
  split
  case h_6 => exact hne
  all_goals exact List.cons_ne_nil _ _

theorem mem_handed {slots : List (Option W)} (hne : slots ≠ []) (ms : List (Mark W)) (w : W) :
    w ∈ handed slots ms ↔ Held slots ms w ∨ ∃ w', Consecutive ms w w' := by
  induction ms generalizing slots with
  | nil =>
      refine iff_of_false List.not_mem_nil ?_
      rintro (⟨k, -, hleads⟩ | ⟨w', hcons⟩)
      · exact not_leads_nil k hleads
      · exact consecutive_nil hcons
  | cons m ms ih =>
      rw [handed, List.mem_append, ih (next_ne_nil m hne), ← or_assoc, held_step hne, consecutive_cons, or_assoc]

/-- **A thing is handed out exactly if another one is put behind it in its block.** -/
theorem mem_handed_iff {ms : List (Mark W)} {w : W} :
    w ∈ handed [none] ms ↔ ∃ w', Consecutive ms w w' := by
  have hempty : ¬ Held [none] ms w := by
    rintro ⟨k, hk, -⟩
    cases k with
    | zero => cases hk
    | succ k => cases hk
  rw [mem_handed (List.cons_ne_nil _ _), or_iff_right hempty]

end BlockSlots
