/-
  ShaderClippy.Lib.Convergence

  **LANES THAT STAY TOGETHER.**

  An act is `Converged` when the lanes that enter it leave it in one way, and all or
  none of them take part in each of its observed evaluations. Branches keep lanes
  together where all of them decide alike, which is what `Secure` promises; a branch
  that lanes take apart is harmless where nothing below it is observed and every lane
  comes out of it at its end (`Stays`).

  The rules are one per construct, as in `Lib.Lockstep`.
-/
import ShaderClippy.Lib.Lockstep

namespace Lockstep

variable {ι X V L J β : Type}

/-! ## §1. What is said of an evaluation. -/

/-- Only lanes of the mask take part. -/
def Event.Within (mask : Mask ι) (e : Event ι L V) : Prop := ∀ l, e.active l = true → mask l = true

/-- All lanes of the mask take part, or none of them. -/
def Event.Whole (mask : Mask ι) (e : Event ι L V) : Prop :=
  ∀ l m, mask l = true → mask m = true → e.active l = e.active m

theorem Event.Within.mono {mask mask' : Mask ι} {e : Event ι L V} (h : e.Within mask)
    (hsub : ∀ l, mask l = true → mask' l = true) : e.Within mask' := fun l hl => hsub l (h l hl)

/-- Lanes that take part are all in, or all out of, the smaller mask. -/
theorem Event.Whole.of_part {mask part : Mask ι} {e : Event ι L V} (hwithin : e.Within part) (hwhole : e.Whole part)
    (hpart : ∀ l m, mask l = true → mask m = true → part l = part m) : e.Whole mask := by
  intro l m hl hm
  have hsame := hpart l m hl hm
  by_cases hin : part l = true
  · exact hwhole l m hin (hsame ▸ hin)
  · have hout : ∀ k, part k = part l → e.active k = false := by
      intro k hk
      exact Bool.eq_false_iff.mpr fun ha => hin (hk ▸ hwithin k ha)
    rw [hout l rfl, hout m hsame.symm]

/-! ## §2. Acts that every lane comes out of. -/

/-- The evaluations are about `Q`, the lanes of the mask leave in a way of `O`, and no
other lane leaves. -/
structure Settled (Q : L → Prop) (O : Outcome J → Prop) (mask : Mask ι) (r : Result ι X V L J) : Prop where
  about : ∀ e ∈ r.events, Q e.label ∧ e.Within mask
  out : ∀ l, mask l = true → O (r.out l)
  idle : ∀ l, mask l = false → r.out l = .gone

/-- So it is whatever the lanes start with. -/
def Stays (Q : L → Prop) (O : Outcome J → Prop) (a : Act ι X V L J) : Prop := ∀ mask w, Settled Q O mask (a mask w)

/-- The evaluations of a query are about `Q`. -/
def About (Q : L → Prop) (q : Query ι X V L β) : Prop :=
  ∀ mask w, ∀ e ∈ (q mask w).events, Q e.label ∧ e.Within mask

/-- Who completes was active. -/
theorem active_of_falls {mask : Mask ι} {r : Result ι X V L J} (hidle : ∀ l, mask l = false → r.out l = .gone) {l : ι}
    (h : r.falls l = true) : mask l = true := by
  cases hm : mask l with
  | true => rfl
  | false =>
      rw [falls_iff, hidle l hm] at h
      cases h

section Stays

variable {Q : L → Prop} {O O' : Outcome J → Prop} {a b : Act ι X V L J}

theorem Stays.weaken (ha : Stays Q O a) (hO : ∀ o, O o → O' o) : Stays Q O' a := fun mask w =>
  ⟨(ha mask w).about, fun l hl => hO _ ((ha mask w).out l hl), (ha mask w).idle⟩

theorem Stays.leave {o : Outcome J} (ho : O o) : Stays Q O (Act.leave o : Act ι X V L J) := by
  intro mask w
  refine ⟨fun e he => absurd he List.not_mem_nil, fun l hl => ?_, fun l hl => ?_⟩
  · show O (if mask l then o else .gone)
    rw [if_pos hl]
    exact ho
  · exact if_neg (by rw [hl]; exact Bool.false_ne_true)

theorem Stays.skip (ho : O .fall) : Stays Q O (Act.skip : Act ι X V L J) := Stays.leave ho

theorem Stays.seq (ha : Stays Q O a) (hb : Stays Q O b) : Stays Q O (Act.seq a b) := by
  intro mask w
  have hr := ha mask w
  have hs := hb (a mask w).falls (a mask w).wave
  refine ⟨fun e he => ?_, fun l hl => ?_, fun l hl => ?_⟩
  · obtain he | he := List.mem_append.mp he
    · exact hr.about e he
    · obtain ⟨hq, hwithin⟩ := hs.about e he
      exact ⟨hq, hwithin.mono fun l => active_of_falls hr.idle⟩
  · show O (if (a mask w).falls l then _ else _)
    split
    case isTrue hfalls => exact hs.out l hfalls
    case isFalse => exact hr.out l hl
  · have hnot : ¬ (a mask w).falls l = true := fun h => by
      rw [active_of_falls hr.idle h] at hl
      cases hl
    show (if (a mask w).falls l then _ else (a mask w).out l) = _
    rw [if_neg hnot]
    exact hr.idle l hl

theorem Stays.split {p : Mask ι} (ha : Stays Q O a) (hb : Stays Q O b) : Stays Q O (Act.split p a b) := by
  intro mask w
  have hleft : ∀ {q : Bool} {l : ι}, (mask l && q) = true → mask l = true := fun h => ((Bool.and_eq_true _ _).mp h).1
  have hr := ha (fun l => mask l && p l) w
  have hs := hb (fun l => mask l && !p l) (a (fun l => mask l && p l) w).wave
  refine ⟨fun e he => ?_, fun l hl => ?_, fun l hl => ?_⟩
  · obtain he | he := List.mem_append.mp he
    · exact ⟨(hr.about e he).1, (hr.about e he).2.mono fun l => hleft⟩
    · exact ⟨(hs.about e he).1, (hs.about e he).2.mono fun l => hleft⟩
  · show O (if p l then _ else _)
    split
    case isTrue hp => exact hr.out l (by rw [hl, hp]; rfl)
    case isFalse hp => exact hs.out l (by rw [hl, Bool.eq_false_iff.mpr hp]; rfl)
  · show (if p l then _ else _) = _
    split
    case isTrue => exact hr.idle l (by rw [hl]; rfl)
    case isFalse => exact hs.idle l (by rw [hl]; rfl)

theorem Stays.withValue {q : Query ι X V L β} {k : (ι → β) → Act ι X V L J} (hq : About Q q)
    (hk : ∀ v, Stays Q O (k v)) : Stays Q O (Act.withValue q k) := by
  intro mask w
  have hs := hk (q mask w).value mask (q mask w).wave
  refine ⟨fun e he => ?_, hs.out, hs.idle⟩
  obtain he | he := List.mem_append.mp he
  · exact hq mask w e he
  · exact hs.about e he

theorem Stays.scope {declared : X → Bool} (ha : Stays Q O a) : Stays Q O (Act.scope declared a) :=
  fun mask w => ⟨(ha mask w).about, (ha mask w).out, (ha mask w).idle⟩

theorem Stays.catching [DecidableEq J] {j : J} (ha : Stays Q O a) (hO : ∀ o, O o → O' (o.caught j)) :
    Stays Q O' (Act.catching j a) := by
  intro mask w
  refine ⟨(ha mask w).about, fun l hl => hO _ ((ha mask w).out l hl), fun l hl => ?_⟩
  show ((a mask w).out l).caught j = _
  rw [(ha mask w).idle l hl]
  rfl

end Stays

/-! ## §3. Acts that keep lanes together. -/

/-- The lanes of the mask have stayed together. -/
structure Together (P : L → Prop) (mask : Mask ι) (r : Result ι X V L J) : Prop where
  within : ∀ e ∈ r.events, e.Within mask
  whole : ∀ e ∈ r.events, P e.label → e.Whole mask
  out : ∀ l m, mask l = true → mask m = true → r.out l = r.out m

/-- Lanes of `B` that start alike stay together. -/
def Converged (shared : X → Prop) (P : L → Prop) (B : Mask ι) (a : Act ι X V L J) : Prop :=
  ∀ mask w, (∀ l, mask l = true → B l = true) → Gathered shared mask w → Together P mask (a mask w)

/-- The observed evaluations of a query are made by all lanes or by none. -/
def WholeQuery (P : L → Prop) (q : Query ι X V L β) : Prop :=
  ∀ mask w, ∀ e ∈ (q mask w).events, e.Within mask ∧ (P e.label → e.Whole mask)

section Converged

variable {shared : X → Prop} {low P : L → Prop} {B : Mask ι} {c : Context X J} {N : X → Prop} {a b : Act ι X V L J}

/-- Where nothing is observed and there is one way out. -/
theorem Converged.of_stays {Q : L → Prop} {o : Outcome J} (ha : Stays Q (· = o) a) (hQ : ∀ x, Q x → ¬ P x) :
    Converged shared P B a := by
  intro mask w _ _
  have hr := ha mask w
  exact ⟨fun e he => (hr.about e he).2, fun e he hP => absurd hP (hQ _ (hr.about e he).1),
    fun l m hl hm => (hr.out l hl).trans (hr.out m hm).symm⟩

theorem Converged.leave (o : Outcome J) : Converged shared P B (Act.leave o : Act ι X V L J) := by
  intro mask w _ _
  refine ⟨fun e he => absurd he List.not_mem_nil, fun e he => absurd he List.not_mem_nil, fun l m hl hm => ?_⟩
  show (if mask l then o else .gone) = if mask m then o else .gone
  rw [if_pos hl, if_pos hm]

theorem Converged.skip : Converged shared P B (Act.skip : Act ι X V L J) := Converged.leave .fall

theorem Converged.seq (hs : Secure shared low B c shared a) (ha : Converged shared P B a)
    (hb : Converged shared P B b) : Converged shared P B (Act.seq a b) := by
  intro mask w hB hw
  have hr := hs mask w hB hw
  have htogether := ha mask w hB hw
  have hactive : ∀ l, (a mask w).falls l = true → mask l = true := fun l hl =>
    active_of_falls (fun l hl => (hr.idle l hl).1) hl
  have hsame : ∀ l m, mask l = true → mask m = true → (a mask w).falls l = (a mask w).falls m := by
    intro l m hl hm
    unfold Result.falls
    rw [htogether.out l m hl hm]
  -- all that are left go on, or none
  have hnext := hb (a mask w).falls (a mask w).wave (fun l hl => hB l (hactive l hl)) hr.gathered
  refine ⟨fun e he => ?_, fun e he hP => ?_, fun l m hl hm => ?_⟩
  · obtain he | he := List.mem_append.mp he
    · exact htogether.within e he
    · exact (hnext.within e he).mono hactive
  · obtain he | he := List.mem_append.mp he
    · exact htogether.whole e he hP
    · exact Event.Whole.of_part (hnext.within e he) (hnext.whole e he hP) hsame
  · show (if (a mask w).falls l then _ else _) = if (a mask w).falls m then _ else _
    rw [← hsame l m hl hm]
    split
    case isTrue hfalls => exact hnext.out l m hfalls (hsame l m hl hm ▸ hfalls)
    case isFalse => exact htogether.out l m hl hm

/-- A branch that the lanes take together. -/
theorem Converged.split {p : Mask ι} (hp : ∀ l m, B l = true → B m = true → p l = p m)
    (hs : Secure shared low B c N a) (ha : Converged shared P B a) (hb : Converged shared P B b) :
    Converged shared P B (Act.split p a b) := by
  intro mask w hB hw
  have hleft : ∀ {q : Bool} {l : ι}, (mask l && q) = true → mask l = true := fun h => ((Bool.and_eq_true _ _).mp h).1
  have hsame : ∀ l m, mask l = true → mask m = true → p l = p m := fun l m hl hm => hp l m (hB l hl) (hB m hm)
  have hwa : Gathered shared (fun l => mask l && p l) w := fun l m hl hm => hw l m (hleft hl) (hleft hm)
  have hr := hs (fun l => mask l && p l) w (fun l hl => hB l (hleft hl)) hwa
  have hfirst := ha (fun l => mask l && p l) w (fun l hl => hB l (hleft hl)) hwa
  -- the lanes of the second arm have waited
  have hwait : ∀ l, (mask l && !p l) = true → (a (fun l => mask l && p l) w).wave l = w l := by
    intro l hl
    refine (hr.idle l ?_).2
    have hpl : (!p l) = true := ((Bool.and_eq_true _ _).mp hl).2
    rw [Bool.not_eq_true'] at hpl
    rw [hpl, Bool.and_false]
  have hsecond := hb (fun l => mask l && !p l) (a (fun l => mask l && p l) w).wave (fun l hl => hB l (hleft hl))
    (fun l m hl hm => by
      rw [hwait l hl, hwait m hm]
      exact hw l m (hleft hl) (hleft hm))
  refine ⟨fun e he => ?_, fun e he hP => ?_, fun l m hl hm => ?_⟩
  · obtain he | he := List.mem_append.mp he
    · exact (hfirst.within e he).mono fun l => hleft
    · exact (hsecond.within e he).mono fun l => hleft
  · obtain he | he := List.mem_append.mp he
    · refine Event.Whole.of_part (hfirst.within e he) (hfirst.whole e he hP) fun l m hl hm => ?_
      rw [hl, hm, hsame l m hl hm]
    · refine Event.Whole.of_part (hsecond.within e he) (hsecond.whole e he hP) fun l m hl hm => ?_
      rw [hl, hm, hsame l m hl hm]
  · show (if p l then _ else _) = if p m then _ else _
    rw [← hsame l m hl hm]
    split
    case isTrue hpl =>
      have hpm : p m = true := hsame l m hl hm ▸ hpl
      exact hfirst.out l m (by rw [hl, hpl]; rfl) (by rw [hm, hpm]; rfl)
    case isFalse hpl =>
      have hnot : p l = false := Bool.eq_false_iff.mpr hpl
      have hpm : p m = false := hsame l m hl hm ▸ hnot
      exact hsecond.out l m (by rw [hl, hnot]; rfl) (by rw [hm, hpm]; rfl)

/-- What follows an evaluation may rely on the values. -/
theorem Converged.withValue {q : Query ι X V L β} {frozen : X → Bool} {u : Prop} {k : (ι → β) → Act ι X V L J}
    (hs : SecureQuery shared low frozen u q) (hq : WholeQuery P q)
    (hk : ∀ v B', (∀ l, B' l = true → B l = true) → (u → ∀ l m, B' l = true → B' m = true → v l = v m) →
      Converged shared P B' (k v)) : Converged shared P B (Act.withValue q k) := by
  intro mask w hB hw
  have hread := hs mask w hw
  have hnext := hk (q mask w).value mask hB hread.agree mask (q mask w).wave (fun _ h => h) hread.alike
  refine ⟨fun e he => ?_, fun e he hP => ?_, hnext.out⟩
  · obtain he | he := List.mem_append.mp he
    · exact (hq mask w e he).1
    · exact hnext.within e he
  · obtain he | he := List.mem_append.mp he
    · exact (hq mask w e he).2 hP
    · exact hnext.whole e he hP

theorem Converged.scope {declared : X → Bool} (ha : Converged shared P B a) :
    Converged shared P B (Act.scope declared a) :=
  fun mask w hB hw => ⟨(ha mask w hB hw).within, (ha mask w hB hw).whole, (ha mask w hB hw).out⟩

theorem Converged.catching [DecidableEq J] {j : J} (ha : Converged shared P B a) :
    Converged shared P B (Act.catching j a) :=
  fun mask w hB hw => ⟨(ha mask w hB hw).within, (ha mask w hB hw).whole,
    fun l m hl hm => congrArg (Outcome.caught j) ((ha mask w hB hw).out l m hl hm)⟩

/-- Lanes that stay together in one turn do in all. -/
theorem Converged.iterate (hs : Secure shared low B c shared a) (ha : Converged shared P B a) :
    ∀ n, Converged shared P B (Act.iterate a n) := by
  intro n
  induction n with
  | zero => exact Converged.leave .gone
  | succ n ih => exact Converged.seq hs ha ih

end Converged

end Lockstep
