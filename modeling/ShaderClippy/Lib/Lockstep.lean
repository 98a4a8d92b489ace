/-
  ShaderClippy.Lib.Lockstep

  **LANES IN LOCKSTEP, AND WHEN THEY CANNOT BE TOLD APART.**

  A wave holds a value for every name in every lane. An `Act` runs for the
  lanes of a mask, all of them at once: at a branch the lanes of one arm go
  first and the others wait, a lane that jumps waits at the target of its
  jump, a lane that is gone takes part no more. Every evaluation is an
  `Event`: which lanes took part and what each of them got.

  `Secure` is noninterference for one act: lanes that start alike in the
  `shared` names evaluate alike, and those that complete together are alike
  again. What the act may do to the names of lanes that wait elsewhere, and
  which jumps lanes may take apart from each other, is its `Context`. The
  rules of §4 are one per construct.
-/

namespace Lockstep

variable {ι X V L J β : Type}

/-! ## §1. Waves, events, acts. -/

/-- The lanes that take part. -/
abbrev Mask (ι : Type) := ι → Bool

/-- The values of the names in each lane. -/
abbrev Wave (ι X V : Type) := ι → X → V

/-- An evaluation: what, by which lanes, with which values. -/
structure Event (ι L V : Type) where
  label : L
  active : Mask ι
  value : ι → V

/-- All lanes that take part get the same value. -/
def Event.Agrees (e : Event ι L V) : Prop :=
  ∀ l m, e.active l = true → e.active m = true → e.value l = e.value m

/-- The ways of a lane out of a construct: to its end, by a jump, not at all. -/
inductive Outcome (J : Type) where
  | fall
  | jump (j : J)
  | gone
  deriving Repr, DecidableEq

/-- What a construct leaves behind. -/
structure Result (ι X V L J : Type) where
  events : List (Event ι L V)
  wave : Wave ι X V
  out : ι → Outcome J

/-- The lanes that complete. -/
def Result.falls (r : Result ι X V L J) : Mask ι := fun l =>
  match r.out l with
  | .fall => true
  | _ => false

/-- What the lanes of a mask do. -/
abbrev Act (ι X V L J : Type) := Mask ι → Wave ι X V → Result ι X V L J

/-- What an evaluation leaves behind. -/
structure Reading (ι X V L β : Type) where
  events : List (Event ι L V)
  wave : Wave ι X V
  value : ι → β

/-- An evaluation by the lanes of a mask. -/
abbrev Query (ι X V L β : Type) := Mask ι → Wave ι X V → Reading ι X V L β

/-! ## §2. Constructs. -/

/-- All lanes leave in the same way. -/
def Act.leave (o : Outcome J) : Act ι X V L J :=
  fun mask w => ⟨[], w, fun l => if mask l then o else .gone⟩

/-- Nothing. -/
def Act.skip : Act ι X V L J := Act.leave .fall

/-- The lanes that complete `a` go on with `b`. -/
def Act.seq (a b : Act ι X V L J) : Act ι X V L J := fun mask w =>
  let r := a mask w
  let s := b r.falls r.wave
  ⟨r.events ++ s.events, s.wave, fun l => if r.falls l then s.out l else r.out l⟩

/-- The lanes with `p` go through `a`, then the others through `b`. -/
def Act.split (p : Mask ι) (a b : Act ι X V L J) : Act ι X V L J := fun mask w =>
  let r := a (fun l => mask l && p l) w
  let s := b (fun l => mask l && !p l) r.wave
  ⟨r.events ++ s.events, s.wave, fun l => if p l then r.out l else s.out l⟩

/-- An evaluation by the lanes with `p`; the others get no value. -/
def Query.only (p : Mask ι) (q : Query ι X V L β) : Query ι X V L (Option β) := fun mask w =>
  let r := q (fun l => mask l && p l) w
  ⟨r.events, r.wave, fun l => if mask l && p l then some (r.value l) else none⟩

/-- Evaluate, then go on with the values. -/
def Act.withValue (q : Query ι X V L β) (k : (ι → β) → Act ι X V L J) : Act ι X V L J :=
  fun mask w =>
    let r := q mask w
    let s := k r.value mask r.wave
    ⟨r.events ++ s.events, s.wave, s.out⟩

/-- The way out once the jump to `j` has arrived. -/
def Outcome.caught [DecidableEq J] (j : J) (o : Outcome J) : Outcome J :=
  if o = .jump j then .fall else o

/-- The target of a jump is the end of the construct. -/
def Act.catching [DecidableEq J] (j : J) (a : Act ι X V L J) : Act ι X V L J := fun mask w =>
  let r := a mask w
  ⟨r.events, r.wave, fun l => (r.out l).caught j⟩

/-- Turn after turn; lanes that want more than `n` turns are gone. -/
def Act.iterate (turn : Act ι X V L J) : Nat → Act ι X V L J
  | 0 => Act.leave .gone
  | n + 1 => Act.seq turn (Act.iterate turn n)

/-- A scope: at its end the names it declares are what they were before. -/
def Act.scope (declared : X → Bool) (a : Act ι X V L J) : Act ι X V L J := fun mask w =>
  let r := a mask w
  ⟨r.events, fun l x => if declared x then w l x else r.wave l x, r.out⟩

/-! ## §3. Contexts, and what holds before and after. -/

/-- How the lanes of a group may take a jump: all that are left at once, some
of them, none. -/
inductive Mode where
  | together | apart | never
  deriving Repr, DecidableEq

/-- Below a branch that only part of the lanes takes. -/
def Mode.split : Mode → Mode
  | .together => .never
  | m => m

/-- The names that must not change, since lanes that are not here hold them
too, and the modes of the jumps. -/
structure Context (X J : Type) where
  frozen : X → Bool
  mode : J → Mode

/-- Outside everything. -/
def Context.top : Context X J := ⟨fun _ => false, fun _ => .never⟩

/-- Below a branch; `apart`: lanes may take it apart from each other. -/
def Context.under (c : Context X J) (apart : Bool) : Context X J :=
  ⟨fun x => c.frozen x || apart, fun j => if apart then (c.mode j).split else c.mode j⟩

/-- In a scope. -/
def Context.inside (c : Context X J) (declared : X → Bool) : Context X J :=
  ⟨fun x => c.frozen x && !declared x, c.mode⟩

/-- Inside the target of a jump. `apart`: lanes may jump there at different
times; then no name changes but those nobody looks at behind the target. -/
def Context.target [DecidableEq J] (c : Context X J) (j : J) (apart : Bool)
    (declared : X → Bool) : Context X J :=
  ⟨fun x => c.frozen x || (apart && !declared x),
   fun i => if i = j then (if apart then .apart else .together)
     else if apart then (c.mode i).split else c.mode i⟩

/-- Ways out that all lanes of a group take at once. -/
def Context.Joint (c : Context X J) : Outcome J → Prop
  | .fall => True
  | .jump j => c.mode j = .together
  | .gone => False

/-- The same values for the names in `N`. -/
def Alike (N : X → Prop) (s t : X → V) : Prop := ∀ x, N x → s x = t x

section Security

variable (shared : X → Prop) (low : L → Prop)

/-- The active lanes agree on the shared names. -/
def Gathered (mask : Mask ι) (w : Wave ι X V) : Prop :=
  ∀ l m, mask l = true → mask m = true → Alike shared (w l) (w m)

/-- What an act guarantees; the lanes that leave together agree on `N`. -/
structure Post (c : Context X J) (N : X → Prop) (mask : Mask ι) (w : Wave ι X V)
    (r : Result ι X V L J) : Prop where
  good : ∀ e ∈ r.events, low e.label → e.Agrees
  idle : ∀ l, mask l = false → r.out l = .gone ∧ r.wave l = w l
  kept : ∀ l x, shared x → c.frozen x = true → r.wave l x = w l x
  joint : ∀ l m, c.Joint (r.out l) → c.Joint (r.out m) →
    r.out l = r.out m ∧ Alike N (r.wave l) (r.wave m)
  never : ∀ l j, r.out l = .jump j → c.mode j ≠ .never

/-- What an evaluation guarantees; `u`: its value is the same in all lanes. -/
structure ReadPost (frozen : X → Bool) (u : Prop) (mask : Mask ι) (w : Wave ι X V)
    (r : Reading ι X V L β) : Prop where
  good : ∀ e ∈ r.events, low e.label → e.Agrees
  idle : ∀ l, mask l = false → r.wave l = w l
  kept : ∀ l x, shared x → frozen x = true → r.wave l x = w l x
  alike : Gathered shared mask r.wave
  agree : u → ∀ l m, mask l = true → mask m = true → r.value l = r.value m

/-- Noninterference for an act of lanes of `B`. -/
def Secure (B : Mask ι) (c : Context X J) (N : X → Prop) (a : Act ι X V L J) : Prop :=
  ∀ mask w, (∀ l, mask l = true → B l = true) → Gathered shared mask w →
    Post shared low c N mask w (a mask w)

/-- Noninterference for an evaluation. -/
def SecureQuery (frozen : X → Bool) (u : Prop) (q : Query ι X V L β) : Prop :=
  ∀ mask w, Gathered shared mask w → ReadPost shared low frozen u mask w (q mask w)

end Security

/-! ## §4. The rules. -/

section Rules

variable {shared : X → Prop} {low : L → Prop} {B mask : Mask ι} {c : Context X J}
  {N : X → Prop} {w : Wave ι X V} {r s : Result ι X V L J} {a b : Act ι X V L J}

theorem falls_iff {l : ι} : r.falls l = true ↔ r.out l = .fall := by
  unfold Result.falls
  cases r.out l <;> simp

/-- Whoever is not gone was active. -/
theorem Post.active (hr : Post shared low c N mask w r) {l : ι} (h : r.out l ≠ .gone) :
    mask l = true := by
  cases hm : mask l with
  | true => rfl
  | false => exact absurd (hr.idle l hm).1 h

theorem Context.Joint.ne_gone {o : Outcome J} (h : c.Joint o) : o ≠ .gone := by
  intro ho
  rw [ho] at h
  exact h

/-- What is kept for some names is kept alike. -/
theorem Post.alike_of_kept (hr : Post shared low c N mask w r) {M : X → Prop}
    (hM : ∀ x, M x → shared x ∧ c.frozen x = true) (hw : Gathered shared mask w) {l m : ι}
    (hl : mask l = true) (hm : mask m = true) : Alike M (r.wave l) (r.wave m) := by
  intro x hx
  obtain ⟨hs, hf⟩ := hM x hx
  rw [hr.kept l x hs hf, hr.kept m x hs hf]
  exact hw l m hl hm x hs

/-! ### Leaving and going on. -/

theorem Secure.leave (hN : ∀ x, N x → shared x) {o : Outcome J}
    (ho : ∀ j, o = .jump j → c.mode j ≠ .never) :
    Secure shared low B c N (Act.leave (V := V) o : Act ι X V L J) := by
  intro mask w _ hw
  have hout : ∀ l, (if mask l then o else Outcome.gone) ≠ Outcome.gone → mask l = true := by
    intro l hl
    exact Decidable.of_not_not fun hm => hl (if_neg hm)
  refine ⟨nofun, fun l hl => ?_, fun l x _ _ => rfl, fun l m hl hm => ?_, fun l j hj => ?_⟩
  · exact ⟨if_neg (by rw [hl]; exact nofun), rfl⟩
  · have hml := hout l hl.ne_gone
    have hmm := hout m hm.ne_gone
    refine ⟨?_, fun x hx => hw l m hml hmm x (hN x hx)⟩
    show (if mask l then o else Outcome.gone) = if mask m then o else Outcome.gone
    rw [if_pos hml, if_pos hmm]
  · have hj' : (if mask l then o else Outcome.gone) = .jump j := hj
    have hml := hout l (by rw [hj']; exact nofun)
    rw [if_pos hml] at hj'
    exact ho j hj'

theorem Secure.skip (hN : ∀ x, N x → shared x) :
    Secure shared low B c N (Act.skip (V := V) : Act ι X V L J) :=
  Secure.leave hN nofun

/-- The lanes that complete an act are gathered for the next one. -/
theorem Post.gathered (hr : Post shared low c shared mask w r) :
    Gathered shared r.falls r.wave := by
  intro l m hl hm
  rw [falls_iff] at hl hm
  have hj : ∀ {o : Outcome J}, o = .fall → c.Joint o := by
    intro o ho
    rw [ho]
    exact trivial
  exact (hr.joint l m (hj hl) (hj hm)).2

theorem Secure.seq (hN : ∀ x, N x → shared x) (ha : Secure shared low B c shared a)
    (hb : Secure shared low B c N b) : Secure shared low B c N (Act.seq a b) := by
  intro mask w hB hw
  have hr := ha mask w hB hw
  have hfalls : ∀ l, (a mask w).falls l = true → mask l = true := by
    intro l hl
    exact hr.active (by rw [falls_iff.mp hl]; exact nofun)
  have hs := hb _ _ (fun l hl => hB l (hfalls l hl)) hr.gathered
  have hout : ∀ l, (Act.seq a b mask w).out l = if (a mask w).falls l then
      (b (a mask w).falls (a mask w).wave).out l else (a mask w).out l := fun _ => rfl
  -- who does not complete `a` waits while the others go through `b`
  have hwait : ∀ l, (a mask w).falls l ≠ true →
      (Act.seq a b mask w).out l = (a mask w).out l
        ∧ (Act.seq a b mask w).wave l = (a mask w).wave l := by
    intro l hl
    exact ⟨(hout l).trans (if_neg hl), (hs.idle l (Bool.eq_false_iff.mpr hl)).2⟩
  have hgo : ∀ l, (a mask w).falls l = true →
      (Act.seq a b mask w).out l = (b (a mask w).falls (a mask w).wave).out l :=
    fun l hl => (hout l).trans (if_pos hl)
  refine ⟨fun e he => ?_, fun l hl => ?_, fun l x hx hf => ?_, fun l m hl hm => ?_,
    fun l j hj => ?_⟩
  · rcases List.mem_append.mp he with he | he
    · exact hr.good e he
    · exact hs.good e he
  · obtain ⟨hg, hwl⟩ := hr.idle l hl
    have hnf : (a mask w).falls l ≠ true := fun hf => by
      rw [falls_iff, hg] at hf
      cases hf
    exact ⟨(hwait l hnf).1.trans hg, (hwait l hnf).2.trans hwl⟩
  · exact (hs.kept l x hx hf).trans (hr.kept l x hx hf)
  · by_cases hfl : (a mask w).falls l = true <;> by_cases hfm : (a mask w).falls m = true
    · rw [hgo l hfl] at hl ⊢
      rw [hgo m hfm] at hm ⊢
      exact hs.joint l m hl hm
    · -- one lane completes `a`, the other leaves it together with all that are left
      rw [(hwait m hfm).1] at hm
      have := (hr.joint l m (by rw [falls_iff.mp hfl]; exact trivial) hm).1
      exact absurd (falls_iff.mpr (this ▸ falls_iff.mp hfl)) hfm
    · rw [(hwait l hfl).1] at hl
      have := (hr.joint l m hl (by rw [falls_iff.mp hfm]; exact trivial)).1
      exact absurd (falls_iff.mpr (this.trans (falls_iff.mp hfm))) hfl
    · rw [(hwait l hfl).1] at hl ⊢
      rw [(hwait m hfm).1] at hm ⊢
      rw [(hwait l hfl).2, (hwait m hfm).2]
      obtain ⟨ho, hal⟩ := hr.joint l m hl hm
      exact ⟨ho, fun x hx => hal x (hN x hx)⟩
  · by_cases hfl : (a mask w).falls l = true
    · rw [hgo l hfl] at hj
      exact hs.never l j hj
    · rw [(hwait l hfl).1] at hj
      exact hr.never l j hj

/-! ### Branches. -/

section Split

variable {p : Mask ι} {c' : Context X J}
  (hr : Post shared low c' N (fun l => mask l && p l) w r)
  (hs : Post shared low c' N (fun l => mask l && !p l) r.wave s)

include hr hs

/-- Who comes out of one of the arms was active. -/
theorem Post.arm_active {l : ι} (h : (if p l then r.out l else s.out l) ≠ .gone) :
    mask l = true := by
  by_cases hp : p l = true
  · rw [if_pos hp] at h
    exact ((Bool.and_eq_true _ _).mp (hr.active h)).1
  · rw [if_neg hp] at h
    exact ((Bool.and_eq_true _ _).mp (hs.active h)).1

theorem Post.arm_never {l : ι} {j : J} (h : (if p l then r.out l else s.out l) = .jump j) :
    c'.mode j ≠ .never := by
  by_cases hp : p l = true
  · rw [if_pos hp] at h
    exact hr.never l j h
  · rw [if_neg hp] at h
    exact hs.never l j h

theorem Post.arm_idle {l : ι} (hl : mask l = false) :
    (if p l then r.out l else s.out l) = .gone ∧ s.wave l = w l := by
  obtain ⟨hgr, hwr⟩ := hr.idle l (by rw [hl]; rfl)
  obtain ⟨hgs, hws⟩ := hs.idle l (by rw [hl]; rfl)
  exact ⟨by rw [hgr, hgs, ite_self], hws.trans hwr⟩

theorem Post.arm_kept {l : ι} {x : X} (hx : shared x) (hf : c'.frozen x = true) :
    s.wave l x = w l x :=
  (hs.kept l x hx hf).trans (hr.kept l x hx hf)

/-- The lanes take the branch together. -/
theorem Post.arm_joint {l m : ι} (hp : p l = p m)
    (hl : c'.Joint (if p l then r.out l else s.out l))
    (hm : c'.Joint (if p m then r.out m else s.out m)) :
    (if p l then r.out l else s.out l) = (if p m then r.out m else s.out m)
      ∧ Alike N (s.wave l) (s.wave m) := by
  by_cases hpl : p l = true
  · have hpm : p m = true := hp ▸ hpl
    rw [if_pos hpl] at hl ⊢
    rw [if_pos hpm] at hm ⊢
    rw [(hs.idle l (by rw [hpl, Bool.not_true, Bool.and_false])).2,
      (hs.idle m (by rw [hpm, Bool.not_true, Bool.and_false])).2]
    exact hr.joint l m hl hm
  · have hpm : ¬ p m = true := hp ▸ hpl
    rw [if_neg hpl] at hl ⊢
    rw [if_neg hpm] at hm ⊢
    exact hs.joint l m hl hm

end Split

/-- Below a branch of its own a lane can only complete. -/
theorem Context.Joint.fall_of_under {o : Outcome J} (h : c.Joint o)
    (hn : ∀ j, o = .jump j → (c.under true).mode j ≠ .never) : o = .fall := by
  cases o with
  | fall => rfl
  | gone => exact absurd rfl h.ne_gone
  | jump j =>
      have hmode : c.mode j = .together := h
      refine absurd ?_ (hn j rfl)
      show (c.mode j).split = .never
      rw [hmode]
      rfl

theorem Context.under_false (c : Context X J) : c.under false = c := by
  show Context.mk (fun x => c.frozen x || false) _ = c
  simp only [Bool.or_false]
  rfl

theorem Context.under_never {apart : Bool} {j : J} (h : (c.under apart).mode j ≠ .never) :
    c.mode j ≠ .never := by
  intro hn
  apply h
  show (if apart then (c.mode j).split else c.mode j) = .never
  rw [hn]
  cases apart <;> rfl

theorem Secure.split {p : Mask ι} {apart : Bool} (hN : ∀ x, N x → shared x)
    (hp : apart = false → ∀ l m, B l = true → B m = true → p l = p m)
    (ha : Secure shared low B (c.under apart) N a) (hb : Secure shared low B (c.under apart) N b) :
    Secure shared low B c N (Act.split p a b) := by
  intro mask w hB hw
  have hleft : ∀ {q : Bool} {l : ι}, (mask l && q) = true → mask l = true :=
    fun h => ((Bool.and_eq_true _ _).mp h).1
  have hr := ha (fun l => mask l && p l) w (fun l hl => hB l (hleft hl))
    (fun l m hl hm => hw l m (hleft hl) (hleft hm))
  -- the lanes of the second arm have waited
  have hwait : ∀ l, (mask l && !p l) = true → (a (fun l => mask l && p l) w).wave l = w l := by
    intro l hl
    refine (hr.idle l ?_).2
    have hpl : (!p l) = true := ((Bool.and_eq_true _ _).mp hl).2
    rw [Bool.not_eq_true'] at hpl
    rw [hpl, Bool.and_false]
  have hs := hb (fun l => mask l && !p l) (a (fun l => mask l && p l) w).wave
    (fun l hl => hB l (hleft hl)) (fun l m hl hm => by
      rw [hwait l hl, hwait m hm]
      exact hw l m (hleft hl) (hleft hm))
  refine ⟨fun e he => ?_, fun l hl => Post.arm_idle hr hs hl, fun l x hx hf => ?_,
    fun l m hl hm => ?_, fun l j hj => Context.under_never (Post.arm_never hr hs hj)⟩
  · rcases List.mem_append.mp he with he | he
    · exact hr.good e he
    · exact hs.good e he
  · refine Post.arm_kept hr hs hx ?_
    show (c.frozen x || apart) = true
    rw [hf, Bool.true_or]
  · have hml := Post.arm_active hr hs hl.ne_gone
    have hmm := Post.arm_active hr hs hm.ne_gone
    cases apart with
    | false =>
        rw [Context.under_false] at hr hs
        exact Post.arm_joint hr hs (hp rfl l m (hB l hml) (hB m hmm)) hl hm
    | true =>
        have hfl := hl.fall_of_under fun j hj => Post.arm_never hr hs hj
        have hfm := hm.fall_of_under fun j hj => Post.arm_never hr hs hj
        refine ⟨hfl.trans hfm.symm, fun x hx => ?_⟩
        have hf : (c.under true).frozen x = true := Bool.or_true _
        exact (Post.arm_kept hr hs (hN x hx) hf).trans
          ((hw l m hml hmm x (hN x hx)).trans (Post.arm_kept hr hs (hN x hx) hf).symm)

/-! ### Evaluations. -/

/-- Fewer promises about the value. -/
theorem ReadPost.weaken {frozen : X → Bool} {u v : Prop} {r : Reading ι X V L β}
    (hr : ReadPost shared low frozen u mask w r) (h : v → u) :
    ReadPost shared low frozen v mask w r :=
  ⟨hr.good, hr.idle, hr.kept, hr.alike, fun hv => hr.agree (h hv)⟩

/-- One evaluation after another. -/
theorem ReadPost.andThen {γ : Type} {frozen : X → Bool} {u v : Prop} {r : Reading ι X V L β}
    {s : Reading ι X V L γ} (hr : ReadPost shared low frozen u mask w r)
    (hs : ReadPost shared low frozen v mask r.wave s) :
    ReadPost shared low frozen v mask w ⟨r.events ++ s.events, s.wave, s.value⟩ := by
  refine ⟨fun e he => ?_, fun l hl => ?_, fun l x hx hf => ?_, hs.alike, hs.agree⟩
  · rcases List.mem_append.mp he with he | he
    · exact hr.good e he
    · exact hs.good e he
  · exact (hs.idle l hl).trans (hr.idle l hl)
  · exact (hs.kept l x hx hf).trans (hr.kept l x hx hf)

/-- An evaluation that lanes may skip, apart from each other or not. -/
theorem ReadPost.only {frozen : X → Bool} {u : Prop} {q : Query ι X V L β} {p : Mask ι}
    {apart : Bool} (hq : SecureQuery shared low (fun x => frozen x || apart) u q)
    (hw : Gathered shared mask w)
    (hp : apart = false → ∀ l m, mask l = true → mask m = true → p l = p m) :
    ReadPost shared low frozen (apart = false ∧ u) mask w (Query.only p q mask w) := by
  have hleft : ∀ {l : ι}, (mask l && p l) = true → mask l = true :=
    fun h => ((Bool.and_eq_true _ _).mp h).1
  have hr := hq (fun l => mask l && p l) w (fun l m hl hm => hw l m (hleft hl) (hleft hm))
  refine ⟨hr.good, fun l hl => hr.idle l (by rw [hl]; rfl), fun l x hx hf => ?_,
    fun l m hl hm x hx => ?_, fun hu l m hl hm => ?_⟩
  · exact hr.kept l x hx (by rw [hf]; rfl)
  · cases apart with
    | true =>
        have hkept : ∀ k, (q (fun l => mask l && p l) w).wave k x = w k x :=
          fun k => hr.kept k x hx (Bool.or_true _)
        exact (hkept l).trans ((hw l m hl hm x hx).trans (hkept m).symm)
    | false =>
        by_cases hpl : p l = true
        · have hpm : p m = true := hp rfl l m hl hm ▸ hpl
          exact hr.alike l m (by rw [hl, hpl]; rfl) (by rw [hm, hpm]; rfl) x hx
        · have hnot : ∀ k, p k = p l → (q (fun l => mask l && p l) w).wave k = w k :=
            fun k hk => hr.idle k (by rw [hk, Bool.eq_false_iff.mpr hpl, Bool.and_false])
          show (q (fun l => mask l && p l) w).wave l x = (q (fun l => mask l && p l) w).wave m x
          rw [hnot l rfl, hnot m (hp rfl m l hm hl)]
          exact hw l m hl hm x hx
  · obtain ⟨hapart, hval⟩ := hu
    have hpp := hp hapart l m hl hm
    show (if mask l && p l then some _ else none) = if mask m && p m then some _ else none
    rw [hl, hm, Bool.true_and, Bool.true_and, ← hpp]
    by_cases hpl : p l = true
    · rw [if_pos hpl, if_pos hpl]
      exact congrArg some (hr.agree hval l m (by rw [hl, hpl]; rfl) (by rw [hm, ← hpp, hpl]; rfl))
    · rw [if_neg hpl, if_neg hpl]

/-- What follows an evaluation may rely on the values. -/
theorem Secure.withValue {q : Query ι X V L β} {u : Prop} {k : (ι → β) → Act ι X V L J}
    (hq : SecureQuery shared low c.frozen u q)
    (hk : ∀ v B', (∀ l, B' l = true → B l = true) →
      (u → ∀ l m, B' l = true → B' m = true → v l = v m) → Secure shared low B' c N (k v)) :
    Secure shared low B c N (Act.withValue q k) := by
  intro mask w hB hw
  have hr := hq mask w hw
  have hs := hk (q mask w).value mask hB hr.agree mask (q mask w).wave (fun _ h => h) hr.alike
  refine ⟨fun e he => ?_, fun l hl => ?_, fun l x hx hf => ?_, hs.joint, hs.never⟩
  · rcases List.mem_append.mp he with he | he
    · exact hr.good e he
    · exact hs.good e he
  · obtain ⟨hg, hwl⟩ := hs.idle l hl
    exact ⟨hg, hwl.trans (hr.idle l hl)⟩
  · exact (hs.kept l x hx hf).trans (hr.kept l x hx hf)

/-! ### Jumps, loops, scopes. -/

section Target

variable [DecidableEq J] {j : J} {declared : X → Bool}

theorem Outcome.caught_of_ne {o : Outcome J} (h : o ≠ .jump j) : o.caught j = o := if_neg h

theorem Outcome.caught_jump {o : Outcome J} {i : J} (h : o.caught j = .jump i) :
    o = .jump i ∧ i ≠ j := by
  unfold Outcome.caught at h
  split at h
  · cases h
  · rename_i hne
    exact ⟨h, fun hij => hne (by rw [h, hij])⟩

theorem Outcome.ne_gone_of_caught {o : Outcome J} (h : o.caught j ≠ .gone) : o ≠ .gone := by
  intro ho
  apply h
  rw [ho]
  rfl

/-- Jump and end are both taken by all lanes at once. -/
theorem Context.Joint.of_caught {o : Outcome J} (h : c.Joint (o.caught j)) :
    (c.target j false declared).Joint o := by
  cases o with
  | fall => exact trivial
  | gone => exact h
  | jump i =>
      show (if i = j then Mode.together else c.mode i) = .together
      by_cases hij : i = j
      · exact if_pos hij
      · rw [if_neg hij]
        rw [Outcome.caught_of_ne fun hi => hij (Outcome.jump.inj hi)] at h
        exact h

/-- Where lanes arrive at different times, no other way out is taken at once. -/
theorem Context.Joint.fall_of_caught {o : Outcome J} (h : c.Joint (o.caught j))
    (hn : ∀ i, o = .jump i → (c.target j true declared).mode i ≠ .never) : o.caught j = .fall := by
  cases ho : o.caught j with
  | fall => rfl
  | gone => exact absurd ho h.ne_gone
  | jump i =>
      obtain ⟨hoi, hij⟩ := Outcome.caught_jump ho
      rw [ho] at h
      have hmode : c.mode i = .together := h
      refine absurd ?_ (hn i hoi)
      show (if i = j then Mode.apart else (c.mode i).split) = .never
      rw [if_neg hij, hmode]
      rfl

theorem Context.target_never {apart : Bool} {i : J} (hij : i ≠ j)
    (h : (c.target j apart declared).mode i ≠ .never) : c.mode i ≠ .never := by
  intro hn
  apply h
  show (if i = j then _ else if apart then (c.mode i).split else c.mode i) = .never
  rw [if_neg hij, hn]
  cases apart <;> rfl

theorem Secure.catching {apart : Bool} (hN : ∀ x, N x → shared x)
    (hD : apart = true → ∀ x, N x → declared x = false)
    (ha : Secure shared low B (c.target j apart declared) shared a) :
    Secure shared low B c N (Act.catching j a) := by
  intro mask w hB hw
  have hr := ha mask w hB hw
  refine ⟨hr.good, fun l hl => ?_, fun l x hx hf => ?_, fun l m hl hm => ?_, fun l i hi => ?_⟩
  · obtain ⟨hg, hwl⟩ := hr.idle l hl
    refine ⟨?_, hwl⟩
    show ((a mask w).out l).caught j = .gone
    rw [hg]
    rfl
  · refine hr.kept l x hx ?_
    show (c.frozen x || (apart && !declared x)) = true
    rw [hf, Bool.true_or]
  · change c.Joint (((a mask w).out l).caught j) at hl
    change c.Joint (((a mask w).out m).caught j) at hm
    show ((a mask w).out l).caught j = ((a mask w).out m).caught j ∧ _
    cases apart with
    | false =>
        obtain ⟨heq, hal⟩ := hr.joint l m hl.of_caught hm.of_caught
        exact ⟨by rw [heq], fun x hx => hal x (hN x hx)⟩
    | true =>
        -- lanes meet behind the target, where nothing has changed
        have hfl := hl.fall_of_caught fun i hi => hr.never l i hi
        have hfm := hm.fall_of_caught fun i hi => hr.never m i hi
        refine ⟨hfl.trans hfm.symm, ?_⟩
        refine hr.alike_of_kept (fun x hx => ⟨hN x hx, ?_⟩) hw
          (hr.active (Outcome.ne_gone_of_caught hl.ne_gone))
          (hr.active (Outcome.ne_gone_of_caught hm.ne_gone))
        show (c.frozen x || (true && !declared x)) = true
        rw [hD rfl x hx]
        exact Bool.or_true _
  · obtain ⟨hoi, hij⟩ := Outcome.caught_jump hi
    exact Context.target_never hij (hr.never l i hoi)

end Target

/-- Security of one turn is security of all. -/
theorem Secure.iterate (hN : ∀ x, N x → shared x) (ha : Secure shared low B c shared a) :
    ∀ n, Secure shared low B c N (Act.iterate a n) := by
  intro n
  induction n with
  | zero => exact Secure.leave hN nofun
  | succ n ih => exact Secure.seq hN ha ih

/-- A scope gives its names back; nothing need hold for them at its end. -/
theorem Secure.scope {M : X → Prop} {declared : X → Bool} (hN : ∀ x, N x → shared x)
    (hM : ∀ x, N x → declared x = false → M x)
    (ha : Secure shared low B (c.inside declared) M a) :
    Secure shared low B c N (Act.scope declared a) := by
  intro mask w hB hw
  have hr := ha mask w hB hw
  have hin : ∀ l x, declared x = true → (Act.scope declared a mask w).wave l x = w l x :=
    fun _ _ h => if_pos h
  have hout : ∀ l x, declared x ≠ true →
      (Act.scope declared a mask w).wave l x = (a mask w).wave l x :=
    fun _ _ h => if_neg h
  refine ⟨hr.good, fun l hl => ?_, fun l x hx hf => ?_, fun l m hl hm => ?_, hr.never⟩
  · obtain ⟨hg, hwl⟩ := hr.idle l hl
    refine ⟨hg, funext fun x => ?_⟩
    by_cases hx : declared x = true
    · exact hin l x hx
    · rw [hout l x hx, hwl]
  · by_cases hd : declared x = true
    · exact hin l x hd
    · rw [hout l x hd]
      refine hr.kept l x hx ?_
      show (c.frozen x && !declared x) = true
      rw [hf, Bool.eq_false_iff.mpr hd]
      rfl
  · obtain ⟨heq, hal⟩ := hr.joint l m hl hm
    refine ⟨heq, fun x hx => ?_⟩
    by_cases hd : declared x = true
    · rw [hin l x hd, hin m x hd]
      exact hw l m (hr.active (Context.Joint.ne_gone hl)) (hr.active (Context.Joint.ne_gone hm)) x
        (hN x hx)
    · rw [hout l x hd, hout m x hd]
      exact hal x (hM x hx (Bool.eq_false_iff.mpr hd))

end Rules

end Lockstep
