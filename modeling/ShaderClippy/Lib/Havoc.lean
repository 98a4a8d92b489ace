/-
  ShaderClippy.Lib.Havoc

  **WHAT A TRACE LEAVES ALONE.**

  Each label of a trace may write some names; what it writes there is not
  known. `Runs writes tr env env'`: from the values `env` the trace can come to
  the values `env'`. A name keeps its value along all runs of a trace exactly if
  no label of it writes the name (`keeps_iff`).
-/
import Mathlib.Logic.Function.Basic
import Mathlib.Logic.Nontrivial.Basic

namespace Havoc

variable {L X V : Type} {writes : L → X → Prop}

/-- A run: each label changes what it writes, in any way, and nothing else. -/
inductive Runs (writes : L → X → Prop) : List L → (X → V) → (X → V) → Prop where
  | nil (env : X → V) : Runs writes [] env env
  | cons {l : L} {tr : List L} {env env' env'' : X → V} :
      (∀ x, ¬ writes l x → env' x = env x) → Runs writes tr env' env'' → Runs writes (l :: tr) env env''

/-- Nothing has to change. -/
theorem runs_same (tr : List L) (env : X → V) : Runs writes tr env env := by
  induction tr with
  | nil => exact .nil env
  | cons l tr ih => exact .cons (fun _ _ => rfl) ih

theorem Runs.append {tr ts : List L} {env env' env'' : X → V} (h : Runs writes tr env env')
    (h' : Runs writes ts env' env'') : Runs writes (tr ++ ts) env env'' := by
  induction h with
  | nil => exact h'
  | cons hl _ ih => exact .cons hl (ih h')

/-- What no label writes stays. -/
theorem Runs.keeps {tr : List L} {env env' : X → V} {x : X} (h : Runs writes tr env env')
    (hx : ∀ l ∈ tr, ¬ writes l x) : env' x = env x := by
  induction h with
  | nil => rfl
  | cons hl _ ih =>
      rw [ih fun l hl' => hx l (List.mem_cons_of_mem _ hl')]
      exact hl x (hx _ List.mem_cons_self)

/-- What some label writes may come to be anything. -/
theorem runs_write [DecidableEq X] {tr : List L} {l : L} {x : X} (hl : l ∈ tr) (hx : writes l x) (env : X → V)
    (v : V) : Runs writes tr env (Function.update env x v) := by
  obtain ⟨front, behind, rfl⟩ := List.append_of_mem hl
  refine (runs_same front env).append (.cons (fun y hy => ?_) (runs_same behind _))
  rw [Function.update_of_ne]
  rintro rfl
  exact hy hx

/-- **A name is kept along all runs exactly if no label writes it.** -/
theorem keeps_iff [DecidableEq X] [Nontrivial V] {tr : List L} {x : X} :
    (∀ env env' : X → V, Runs writes tr env env' → env' x = env x) ↔ ∀ l ∈ tr, ¬ writes l x := by
  constructor
  · intro h l hl hx
    obtain ⟨v, w, hne⟩ := exists_pair_ne V
    have hsame := h (fun _ => v) _ (runs_write hl hx (fun _ => v) w)
    rw [Function.update_self] at hsame
    exact hne hsame.symm
  · intro h env env' hruns
    exact hruns.keeps h

end Havoc
