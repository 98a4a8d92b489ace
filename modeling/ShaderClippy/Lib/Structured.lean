/-
  ShaderClippy.Lib.Structured

  **STRUCTURED PROGRAMS, THEIR TRACES, AND A TRIPLE LOGIC FOR MONITORS.**

  `Prog L` is the control skeleton of a structured program: labelled points,
  jumps, sequence, choice, iteration, and handlers that turn a jump into
  normal completion. `Exec p tr o`: some execution of `p` passes the points
  `tr` in order and comes to the outcome `o`; which branches it takes and
  how often it iterates is free. An execution may be cut off anywhere
  (`Outcome.stopped`), so statements about all executions cover those that
  never end.

  A monitor watches a trace: in state `s` the label `l` is accepted when
  `ok s l`, and leads to `next s l`. `Triple` says that every execution
  started in `P` is accepted and where it ends; the rules of §3 are one per
  construct.
-/

namespace Structured

variable {L M σ : Type}

/-! ## §1. Programs and executions. -/

/-- The ways to leave a construct early. -/
inductive Jump where
  | brk | cont | ret
  deriving Repr, DecidableEq

/-- How an execution of a construct ends. -/
inductive Outcome where
  | normal
  | jump (j : Jump)
  | stopped
  deriving Repr, DecidableEq

/-- Control skeletons. -/
inductive Prog (L : Type) where
  | skip
  | point (l : L)
  | jump (j : Jump)
  | seq (p q : Prog L)
  | choice (p q : Prog L)
  | iter (p : Prog L)
  | catching (j : Jump) (p : Prog L)

/-- The executions of a program. -/
inductive Exec : Prog L → List L → Outcome → Prop where
  | stop (p : Prog L) : Exec p [] .stopped
  | skip : Exec .skip [] .normal
  | point (l : L) : Exec (.point l) [l] .normal
  | jump (j : Jump) : Exec (.jump j) [] (.jump j)
  | seqNormal {p q : Prog L} {s t : List L} {o : Outcome} :
      Exec p s .normal → Exec q t o → Exec (.seq p q) (s ++ t) o
  | seqLeave {p q : Prog L} {s : List L} {o : Outcome} :
      Exec p s o → o ≠ .normal → Exec (.seq p q) s o
  | left {p q : Prog L} {s : List L} {o : Outcome} : Exec p s o → Exec (.choice p q) s o
  | right {p q : Prog L} {s : List L} {o : Outcome} : Exec q s o → Exec (.choice p q) s o
  | iterDone {p : Prog L} : Exec (.iter p) [] .normal
  | iterMore {p : Prog L} {s t : List L} {o : Outcome} :
      Exec p s .normal → Exec (.iter p) t o → Exec (.iter p) (s ++ t) o
  | iterLeave {p : Prog L} {s : List L} {o : Outcome} :
      Exec p s o → o ≠ .normal → Exec (.iter p) s o
  | caught {j : Jump} {p : Prog L} {s : List L} :
      Exec p s (.jump j) → Exec (.catching j p) s .normal
  | through {j : Jump} {p : Prog L} {s : List L} {o : Outcome} :
      Exec p s o → o ≠ .jump j → Exec (.catching j p) s o

/-- Points one after another. -/
def Prog.points (ls : List L) : Prog L :=
  ls.foldr (fun l p => .seq (.point l) p) .skip

/-- Programs one after another. -/
def Prog.seqs (ps : List (Prog L)) : Prog L := ps.foldr .seq .skip

/-- A program in place of every point. -/
def Prog.bind (f : L → Prog M) : Prog L → Prog M
  | .skip => .skip
  | .point l => f l
  | .jump j => .jump j
  | .seq p q => .seq (p.bind f) (q.bind f)
  | .choice p q => .choice (p.bind f) (q.bind f)
  | .iter p => .iter (p.bind f)
  | .catching j p => .catching j (p.bind f)

/-- Points are passed in order. -/
theorem exec_points {ls tr : List L} {o : Outcome} (h : Exec (Prog.points ls) tr o) :
    tr <+: ls := by
  induction ls generalizing tr with
  | nil =>
      cases h with
      | stop => exact List.nil_prefix
      | skip => exact List.nil_prefix
  | cons l ls ih =>
      cases h with
      | stop => exact List.nil_prefix
      | seqNormal h1 h2 =>
          cases h1
          exact List.prefix_cons_inj l |>.mpr (ih h2)
      | seqLeave h1 hne =>
          cases h1 with
          | stop => exact List.nil_prefix
          | point => exact absurd rfl hne

/-! ## §2. Monitors. -/

/-- A monitor of traces. -/
structure Monitor (L σ : Type) where
  ok : σ → L → Prop
  next : σ → L → σ

/-- Every label is accepted in the state it meets. -/
def Monitor.Accepts (m : Monitor L σ) : σ → List L → Prop
  | _, [] => True
  | s, l :: ls => m.ok s l ∧ m.Accepts (m.next s l) ls

/-- The state after a trace. -/
def Monitor.final (m : Monitor L σ) (s : σ) (tr : List L) : σ := tr.foldl m.next s

@[simp] theorem Monitor.final_nil (m : Monitor L σ) (s : σ) : m.final s [] = s := rfl

@[simp] theorem Monitor.final_append (m : Monitor L σ) (s : σ) (tr ts : List L) :
    m.final s (tr ++ ts) = m.final (m.final s tr) ts := List.foldl_append

theorem Monitor.accepts_append (m : Monitor L σ) (ts : List L) :
    ∀ (tr : List L) (s : σ),
      m.Accepts s (tr ++ ts) ↔ m.Accepts s tr ∧ m.Accepts (m.final s tr) ts := by
  intro tr
  induction tr with
  | nil => intro s; simp [Monitor.Accepts]
  | cons l tr ih =>
      intro s
      rw [List.cons_append, Monitor.Accepts, Monitor.Accepts, ih, and_assoc]
      rfl

/-- **The triple**: executions started in `P` are accepted, end in `N` when
they complete and in `J j` when they leave by the jump `j`. -/
def Triple (m : Monitor L σ) (P : σ → Prop) (p : Prog L) (N : σ → Prop)
    (J : Jump → σ → Prop) : Prop :=
  ∀ s tr o, P s → Exec p tr o →
    m.Accepts s tr ∧ (o = .normal → N (m.final s tr)) ∧ ∀ j, o = .jump j → J j (m.final s tr)

/-! ## §3. The rules. -/

section Rules

variable {m : Monitor L σ} {P P' N N' Q : σ → Prop} {J J' : Jump → σ → Prop} {p q : Prog L}

theorem Triple.conseq (h : Triple m P p N J) (hP : ∀ s, P' s → P s) (hN : ∀ s, N s → N' s)
    (hJ : ∀ j s, J j s → J' j s) : Triple m P' p N' J' := by
  intro s tr o hs he
  obtain ⟨h1, h2, h3⟩ := h s tr o (hP s hs) he
  exact ⟨h1, fun ho => hN _ (h2 ho), fun j ho => hJ j _ (h3 j ho)⟩

theorem Triple.skip : Triple m P .skip P J := by
  intro s tr o hs he
  cases he with
  | stop => exact ⟨trivial, nofun, nofun⟩
  | skip => exact ⟨trivial, fun _ => hs, nofun⟩

theorem Triple.point {l : L} (h : ∀ s, P s → m.ok s l ∧ N (m.next s l)) :
    Triple m P (.point l) N J := by
  intro s tr o hs he
  cases he with
  | stop => exact ⟨trivial, nofun, nofun⟩
  | point => exact ⟨⟨(h s hs).1, trivial⟩, fun _ => (h s hs).2, nofun⟩

theorem Triple.jump {j : Jump} (h : ∀ s, P s → J j s) : Triple m P (.jump j) N J := by
  intro s tr o hs he
  cases he with
  | stop => exact ⟨trivial, nofun, nofun⟩
  | jump =>
      refine ⟨trivial, nofun, fun k ho => ?_⟩
      cases ho
      exact h s hs

theorem Triple.seq (hp : Triple m P p Q J) (hq : Triple m Q q N J) :
    Triple m P (.seq p q) N J := by
  intro s tr o hs he
  cases he with
  | stop => exact ⟨trivial, nofun, nofun⟩
  | seqNormal h1 h2 =>
      obtain ⟨a1, a2, -⟩ := hp s _ _ hs h1
      obtain ⟨b1, b2, b3⟩ := hq _ _ _ (a2 rfl) h2
      rw [Monitor.accepts_append, Monitor.final_append]
      exact ⟨⟨a1, b1⟩, b2, b3⟩
  | seqLeave h1 hne =>
      obtain ⟨a1, -, a3⟩ := hp s _ _ hs h1
      exact ⟨a1, fun ho => absurd ho hne, a3⟩

theorem Triple.choice (hp : Triple m P p N J) (hq : Triple m P q N J) :
    Triple m P (.choice p q) N J := by
  intro s tr o hs he
  cases he with
  | stop => exact ⟨trivial, nofun, nofun⟩
  | left h => exact hp s tr o hs h
  | right h => exact hq s tr o hs h

/-- Iteration keeps an invariant. -/
theorem Triple.iter (hp : Triple m P p P J) : Triple m P (.iter p) P J := by
  intro s tr o hs he
  generalize hprog : Prog.iter p = prog at he
  induction he generalizing s with
  | iterDone => exact ⟨trivial, fun _ => hs, nofun⟩
  | iterMore h1 _ _ ih =>
      cases hprog
      obtain ⟨a1, a2, -⟩ := hp s _ _ hs h1
      obtain ⟨b1, b2, b3⟩ := ih _ (a2 rfl) rfl
      rw [Monitor.accepts_append, Monitor.final_append]
      exact ⟨⟨a1, b1⟩, b2, b3⟩
  | iterLeave h1 hne _ =>
      cases hprog
      obtain ⟨a1, -, a3⟩ := hp s _ _ hs h1
      exact ⟨a1, fun ho => absurd ho hne, a3⟩
  | stop => exact ⟨trivial, nofun, nofun⟩
  | _ => cases hprog

/-- A handler turns its jump into completion. -/
theorem Triple.catching {j : Jump} (hp : Triple m P p N J') (hj : ∀ s, J' j s → N s)
    (hJ : ∀ k s, k ≠ j → J' k s → J k s) : Triple m P (.catching j p) N J := by
  intro s tr o hs he
  cases he with
  | stop => exact ⟨trivial, nofun, nofun⟩
  | caught h =>
      obtain ⟨a1, -, a3⟩ := hp s _ _ hs h
      exact ⟨a1, fun _ => hj _ (a3 j rfl), nofun⟩
  | through h hne =>
      obtain ⟨a1, a2, a3⟩ := hp s _ _ hs h
      refine ⟨a1, a2, fun k ho => hJ k _ ?_ (a3 k ho)⟩
      rintro rfl
      exact hne ho

end Rules

/-! ## §4. Executions from branch decisions. -/

/-- Continue with `next` if the first part completes. -/
def andThen (first : Option (List L × Outcome × List Bool))
    (next : List Bool → Option (List L × Outcome × List Bool)) :
    Option (List L × Outcome × List Bool) :=
  match first with
  | none => none
  | some (s, .normal, ds) =>
      match next ds with
      | none => none
      | some (t, o, ds') => some (s ++ t, o, ds')
  | some (s, o, ds) => some (s, o, ds)

/-- The execution that takes these decisions (`true`: the left branch, one
more turn): its trace, its outcome and the decisions left over. -/
def follow : Nat → Prog L → List Bool → Option (List L × Outcome × List Bool)
  | 0, _, _ => none
  | _ + 1, .skip, ds => some ([], .normal, ds)
  | _ + 1, .point l, ds => some ([l], .normal, ds)
  | _ + 1, .jump j, ds => some ([], .jump j, ds)
  | fuel + 1, .seq p q, ds => andThen (follow fuel p ds) (follow fuel q)
  | _ + 1, .choice _ _, [] => none
  | fuel + 1, .choice p q, d :: ds => if d then follow fuel p ds else follow fuel q ds
  | _ + 1, .iter _, [] => none
  | fuel + 1, .iter p, d :: ds =>
      if d then andThen (follow fuel p ds) (follow fuel (.iter p)) else some ([], .normal, ds)
  | fuel + 1, .catching j p, ds =>
      match follow fuel p ds with
      | none => none
      | some (s, o, ds') => some (s, if o = .jump j then .normal else o, ds')

theorem andThen_eq {first : Option (List L × Outcome × List Bool)}
    {next : List Bool → Option (List L × Outcome × List Bool)} {tr : List L} {o : Outcome}
    {ds : List Bool} (h : andThen first next = some (tr, o, ds)) :
    (∃ s t ds', first = some (s, .normal, ds') ∧ next ds' = some (t, o, ds) ∧ tr = s ++ t)
      ∨ (first = some (tr, o, ds) ∧ o ≠ .normal) := by
  cases first with
  | none => exact absurd h nofun
  | some r =>
      obtain ⟨s, o', ds'⟩ := r
      cases o' with
      | normal =>
          left
          unfold andThen at h
          simp only at h
          cases hn : next ds' with
          | none =>
              rw [hn] at h
              exact absurd h nofun
          | some r =>
              obtain ⟨t, o'', ds''⟩ := r
              rw [hn] at h
              cases h
              exact ⟨s, t, ds', rfl, hn, rfl⟩
      | jump j =>
          right
          cases h
          exact ⟨rfl, nofun⟩
      | stopped =>
          right
          cases h
          exact ⟨rfl, nofun⟩

/-- Decisions lead along executions. -/
theorem exec_of_follow : ∀ (fuel : Nat) (p : Prog L) (ds : List Bool) {tr : List L} {o : Outcome}
    {ds' : List Bool}, follow fuel p ds = some (tr, o, ds') → Exec p tr o := by
  intro fuel
  induction fuel with
  | zero => intro p ds tr o ds' h; exact absurd h nofun
  | succ fuel ih =>
      intro p ds tr o ds' h
      cases p with
      | skip => cases h; exact .skip
      | point l => cases h; exact .point l
      | jump j => cases h; exact .jump j
      | seq p q =>
          rcases andThen_eq h with ⟨s, t, ds'', h1, h2, rfl⟩ | ⟨h1, hne⟩
          · exact .seqNormal (ih p ds h1) (ih q ds'' h2)
          · exact .seqLeave (ih p ds h1) hne
      | choice p q =>
          cases ds with
          | nil => exact absurd h nofun
          | cons d ds =>
              cases d with
              | true => exact .left (ih p ds h)
              | false => exact .right (ih q ds h)
      | iter p =>
          cases ds with
          | nil => exact absurd h nofun
          | cons d ds =>
              cases d with
              | false => cases h; exact .iterDone
              | true =>
                  rcases andThen_eq h with ⟨s, t, ds'', h1, h2, rfl⟩ | ⟨h1, hne⟩
                  · exact .iterMore (ih p ds h1) (ih (.iter p) ds'' h2)
                  · exact .iterLeave (ih p ds h1) hne
      | catching j p =>
          unfold follow at h
          cases hf : follow fuel p ds with
          | none =>
              rw [hf] at h
              exact absurd h nofun
          | some r =>
              obtain ⟨s, o', ds''⟩ := r
              rw [hf] at h
              have hp := ih p ds hf
              by_cases ho : o' = .jump j
              · simp only [ho, if_true] at h
                cases h
                exact .caught (ho ▸ hp)
              · simp only [ho, if_false] at h
                cases h
                exact .through hp ho

end Structured
