/-
  ShaderClippy.Lib.Hiding

  **STRUCTURED PROGRAMS UP TO HIDDEN LABELS.**

  Two programs are `Alike` if their executions are the same to somebody who does
  not see the labels that are hidden; an execution that is stopped may be one
  that is over. All constructs respect this, and a part that only passes hidden
  labels and goes on may be left out (`alike_seq_hidden`).
-/
import ShaderClippy.Lib.Structured

namespace Structured

variable {L : Type} {hide : L → Bool} {p p' q q' : Prog L}

/-- What is seen of a trace. -/
def visible (hide : L → Bool) (tr : List L) : List L := tr.filter fun l => !hide l

/-- What is seen of an execution, perhaps cut off at its end. -/
def Seen (hide : L → Bool) (p : Prog L) (tr : List L) (o : Outcome) : Prop :=
  ∃ full o', Exec p full o' ∧ (o = o' ∨ o = .stopped) ∧ visible hide full = tr

/-- All that is seen of `p` is seen of `q`. -/
def Within (hide : L → Bool) (p q : Prog L) : Prop := ∀ tr o, Seen hide p tr o → Seen hide q tr o

/-- The same is seen of both. -/
def Alike (hide : L → Bool) (p q : Prog L) : Prop := Within hide p q ∧ Within hide q p

theorem Alike.refl (p : Prog L) : Alike hide p p := ⟨fun _ _ h => h, fun _ _ h => h⟩

theorem Alike.symm (h : Alike hide p q) : Alike hide q p := ⟨h.2, h.1⟩

theorem Alike.trans {r : Prog L} (h : Alike hide p q) (h' : Alike hide q r) : Alike hide p r :=
  ⟨fun tr o hs => h'.1 tr o (h.1 tr o hs), fun tr o hs => h.2 tr o (h'.2 tr o hs)⟩

theorem visible_append (s t : List L) : visible hide (s ++ t) = visible hide s ++ visible hide t :=
  List.filter_append ..

theorem seen_of_exec {tr : List L} {o : Outcome} (h : Exec p tr o) : Seen hide p (visible hide tr) o :=
  ⟨tr, o, h, .inl rfl, rfl⟩

/-- An execution that completes or jumps is seen as it is. -/
theorem exec_of_seen {tr : List L} {o : Outcome} (h : Seen hide p tr o) (ho : o ≠ .stopped) :
    ∃ full, Exec p full o ∧ visible hide full = tr := by
  obtain ⟨full, o', hexec, rfl | hstop, hseen⟩ := h
  · exact ⟨full, hexec, hseen⟩
  · exact absurd hstop ho

theorem seen_stop (p : Prog L) : Seen hide p [] .stopped := ⟨[], .stopped, .stop p, .inl rfl, rfl⟩

/-- To see executions of `q` for those of `p`, an execution at a time. -/
theorem within_of_exec (h : ∀ full o, Exec p full o → Seen hide q (visible hide full) o) : Within hide p q := by
  rintro tr o ⟨full, o', hexec, ho, rfl⟩
  obtain ⟨full', o'', hexec', ho', hseen⟩ := h full o' hexec
  refine ⟨full', o'', hexec', ?_, hseen⟩
  rcases ho with rfl | rfl
  · exact ho'
  · exact .inr rfl

/-! ## §1. The constructs. -/

theorem seen_seq {tr : List L} {o : Outcome} : Seen hide (.seq p q) tr o
    ↔ (∃ s t, Seen hide p s .normal ∧ Seen hide q t o ∧ tr = s ++ t) ∨ (Seen hide p tr o ∧ o ≠ .normal) := by
  constructor
  · rintro ⟨full, o', hexec, ho, rfl⟩
    cases hexec with
    | stop =>
        refine .inr ⟨⟨[], .stopped, .stop p, ho, rfl⟩, ?_⟩
        rcases ho with rfl | rfl <;> nofun
    | seqNormal hp hq => exact .inl ⟨_, _, seen_of_exec hp, ⟨_, o', hq, ho, rfl⟩, visible_append ..⟩
    | seqLeave hp hne =>
        refine .inr ⟨⟨full, o', hp, ho, rfl⟩, ?_⟩
        rcases ho with rfl | rfl
        · exact hne
        · nofun
  · rintro (⟨s, t, hs, ⟨t', o', hq, ho, rfl⟩, rfl⟩ | ⟨⟨s', o', hp, ho, rfl⟩, hne⟩)
    · obtain ⟨s', hp, rfl⟩ := exec_of_seen hs nofun
      exact ⟨s' ++ t', o', .seqNormal hp hq, ho, visible_append ..⟩
    · by_cases hnormal : o' = .normal
      · -- `p` is over, and the execution is cut off there
        subst hnormal
        have hstopped : o = .stopped := ho.resolve_left hne
        exact ⟨s' ++ [], .stopped, .seqNormal hp (.stop q), .inl hstopped, by rw [List.append_nil]⟩
      · exact ⟨s', o', .seqLeave hp hnormal, ho, rfl⟩

theorem Within.seq (hp : Within hide p p') (hq : Within hide q q') : Within hide (.seq p q) (.seq p' q') := by
  intro tr o h
  rw [seen_seq] at h ⊢
  rcases h with ⟨s, t, hs, ht, rfl⟩ | ⟨hs, hne⟩
  · exact .inl ⟨s, t, hp s _ hs, hq t o ht, rfl⟩
  · exact .inr ⟨hp tr o hs, hne⟩

theorem Within.choice (hp : Within hide p p') (hq : Within hide q q') :
    Within hide (.choice p q) (.choice p' q') := by
  refine within_of_exec fun full o hexec => ?_
  cases hexec with
  | stop => exact seen_stop _
  | left h =>
      obtain ⟨full', o', h', ho, hseen⟩ := hp _ o (seen_of_exec h)
      exact ⟨full', o', .left h', ho, hseen⟩
  | right h =>
      obtain ⟨full', o', h', ho, hseen⟩ := hq _ o (seen_of_exec h)
      exact ⟨full', o', .right h', ho, hseen⟩

/-- One more turn in front of what is seen of the others. -/
theorem seen_iter_cons {s t : List L} {o : Outcome} (hs : Seen hide p s .normal) (ht : Seen hide (.iter p) t o) :
    Seen hide (.iter p) (s ++ t) o := by
  obtain ⟨s', hp, rfl⟩ := exec_of_seen hs nofun
  obtain ⟨t', o', hq, ho, rfl⟩ := ht
  exact ⟨s' ++ t', o', .iterMore hp hq, ho, visible_append ..⟩

theorem Within.iter (hp : Within hide p p') : Within hide (.iter p) (.iter p') := by
  refine within_of_exec fun full o hexec => ?_
  generalize hprog : Prog.iter p = prog at hexec
  induction hexec with
  | stop => exact seen_stop _
  | iterDone => exact seen_of_exec .iterDone
  | iterMore hturn _ _ ih =>
      cases hprog
      rw [visible_append]
      exact seen_iter_cons (hp _ _ (seen_of_exec hturn)) (ih rfl)
  | iterLeave hturn hne _ =>
      cases hprog
      obtain ⟨s', o', hs', ho, hseen⟩ := hp _ _ (seen_of_exec hturn)
      by_cases hnormal : o' = .normal
      · subst hnormal
        have hstopped := ho.resolve_left hne
        exact ⟨s' ++ [], .stopped, .iterMore hs' (.stop _), .inl hstopped, by rw [List.append_nil, hseen]⟩
      · exact ⟨s', o', .iterLeave hs' hnormal, ho, hseen⟩
  | _ => cases hprog

theorem Within.catching (j : Jump) (hp : Within hide p p') : Within hide (.catching j p) (.catching j p') := by
  -- whatever ends inside is seen outside, as the end if the jump is caught
  have hkeep : ∀ {full : List L} {o o' : Outcome}, Exec p' full o' → (o = o' ∨ o = .stopped) →
      Seen hide (.catching j p') (visible hide full) (if o = .jump j then .normal else o) := by
    intro full o o' h ho
    by_cases hjump : o' = .jump j
    · subst hjump
      rcases ho with rfl | rfl
      · rw [if_pos rfl]
        exact seen_of_exec (.caught h)
      · rw [if_neg nofun]
        exact ⟨full, .normal, .caught h, .inr rfl, rfl⟩
    · rcases ho with rfl | rfl
      · rw [if_neg hjump]
        exact seen_of_exec (.through h hjump)
      · rw [if_neg nofun]
        exact ⟨full, o', .through h hjump, .inr rfl, rfl⟩
  refine within_of_exec fun full o hexec => ?_
  cases hexec with
  | stop => exact seen_stop _
  | caught h =>
      obtain ⟨full', o', h', ho, hseen⟩ := hp _ _ (seen_of_exec h)
      have := hkeep h' ho
      rwa [if_pos rfl, hseen] at this
  | through h hne =>
      obtain ⟨full', o', h', ho, hseen⟩ := hp _ _ (seen_of_exec h)
      have := hkeep h' ho
      rwa [if_neg hne, hseen] at this

theorem Alike.seq (hp : Alike hide p p') (hq : Alike hide q q') : Alike hide (.seq p q) (.seq p' q') :=
  ⟨hp.1.seq hq.1, hp.2.seq hq.2⟩

theorem Alike.choice (hp : Alike hide p p') (hq : Alike hide q q') :
    Alike hide (.choice p q) (.choice p' q') := ⟨hp.1.choice hq.1, hp.2.choice hq.2⟩

theorem Alike.iter (hp : Alike hide p p') : Alike hide (.iter p) (.iter p') := ⟨hp.1.iter, hp.2.iter⟩

theorem Alike.catching (j : Jump) (hp : Alike hide p p') : Alike hide (.catching j p) (.catching j p') :=
  ⟨hp.1.catching j, hp.2.catching j⟩

/-! ## §2. Parts that are not seen. -/

/-- Nothing of the program is seen, and it goes on. -/
structure Hidden (hide : L → Bool) (p : Prog L) : Prop where
  goes : ∃ tr, Exec p tr .normal
  unseen : ∀ tr o, Exec p tr o → (o = .normal ∨ o = .stopped) ∧ visible hide tr = []

theorem hidden_skip : Hidden hide (.skip : Prog L) := by
  refine ⟨⟨[], .skip⟩, fun tr o h => ?_⟩
  cases h with
  | stop => exact ⟨.inr rfl, rfl⟩
  | skip => exact ⟨.inl rfl, rfl⟩

theorem hidden_point {l : L} (hl : hide l = true) : Hidden hide (.point l) := by
  refine ⟨⟨[l], .point l⟩, fun tr o h => ?_⟩
  cases h with
  | stop => exact ⟨.inr rfl, rfl⟩
  | point => exact ⟨.inl rfl, by rw [visible, List.filter_cons_of_neg (by rw [hl]; nofun), List.filter_nil]⟩

theorem Hidden.seq (hp : Hidden hide p) (hq : Hidden hide q) : Hidden hide (.seq p q) := by
  obtain ⟨s, hs⟩ := hp.goes
  obtain ⟨t, ht⟩ := hq.goes
  refine ⟨⟨s ++ t, .seqNormal hs ht⟩, fun tr o h => ?_⟩
  cases h with
  | stop => exact ⟨.inr rfl, rfl⟩
  | seqNormal h1 h2 =>
      refine ⟨(hq.unseen _ _ h2).1, ?_⟩
      rw [visible_append, (hp.unseen _ _ h1).2, (hq.unseen _ _ h2).2, List.append_nil]
  | seqLeave h1 _ => exact hp.unseen _ _ h1

/-- **A part that is not seen may be left out.** -/
theorem alike_seq_hidden (hp : Hidden hide p) (q : Prog L) : Alike hide (.seq p q) q := by
  constructor
  · intro tr o h
    rcases seen_seq.mp h with ⟨s, t, hs, ht, rfl⟩ | ⟨⟨s, o', hs, ho, rfl⟩, hne⟩
    · obtain ⟨s', hs', rfl⟩ := exec_of_seen hs nofun
      rw [(hp.unseen _ _ hs').2, List.nil_append]
      exact ht
    · -- it stops in the part, and `q` may stop at its beginning
      have hstopped : o = .stopped := by
        rcases ho with rfl | rfl
        · exact (hp.unseen _ _ hs).1.resolve_left hne
        · rfl
      rw [(hp.unseen _ _ hs).2, hstopped]
      exact seen_stop q
  · intro tr o h
    obtain ⟨s, hs⟩ := hp.goes
    refine seen_seq.mpr (.inl ⟨[], tr, ⟨s, .normal, hs, .inl rfl, (hp.unseen _ _ hs).2⟩, h, rfl⟩)

/-- So may the end, if it does nothing. -/
theorem alike_seq_skip (p : Prog L) : Alike hide (.seq p .skip) p := by
  constructor
  · refine within_of_exec fun full o hexec => ?_
    cases hexec with
    | stop => exact seen_stop p
    | seqNormal hp hskip =>
        cases hskip with
        | stop =>
            rw [List.append_nil]
            exact ⟨_, .normal, hp, .inr rfl, rfl⟩
        | skip =>
            rw [List.append_nil]
            exact seen_of_exec hp
    | seqLeave hp _ => exact seen_of_exec hp
  · refine within_of_exec fun full o hexec => ?_
    by_cases ho : o = .normal
    · subst ho
      exact ⟨full ++ [], .normal, .seqNormal hexec .skip, .inl rfl, by rw [List.append_nil]⟩
    · exact seen_of_exec (.seqLeave hexec ho)

end Structured
