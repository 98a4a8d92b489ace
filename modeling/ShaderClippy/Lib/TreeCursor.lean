/-
  ShaderClippy.Lib.TreeCursor

  **A CURSOR IN A TREE, AND THE WALK THAT NEVER GOES BACK.**

  Trees are given by their nodes and the list of children of each. A cursor
  holds a node and the levels above it up to the root, each with the siblings
  on both sides (a zipper); it carries the proof that these levels lead there.

  `walk` visits the node under the cursor, descends if it can, and otherwise
  climbs until there is a sibling to go to, or no level is left. It ends, and
  visits the tree in preorder (`walk_eq`). The invariant is about what the
  cursor has still in front of it: the tree under it, and on each level above
  the trees of the siblings after it.
-/
import ShaderClippy.Lib.Loop

namespace TreeCursor

open Loop (Turn TurnOk loop loop_spec)

/-! ## §1. The cursor. -/

/-- One level: the siblings before the node, its parent, the siblings after. -/
structure Crumb (T : Type) where
  before : List T
  parent : T
  after : List T

/-- The levels lead from the root to the node. -/
inductive Leads {T : Type} (children : T → List T) (root : T) : T → List (Crumb T) → Prop where
  | root : Leads children root root []
  | child {parent node : T} {path : List (Crumb T)} {before after : List T} :
      Leads children root parent path → children parent = before ++ node :: after →
        Leads children root node (⟨before, parent, after⟩ :: path)

/-- A position in the tree of `root`, the innermost level first. -/
structure Cursor {T : Type} (children : T → List T) (root : T) where
  node : T
  path : List (Crumb T)
  leads : Leads children root node path

section Moves

variable {T : Type} {children : T → List T} {root : T}

/-- At the root. -/
def Cursor.start (children : T → List T) (root : T) : Cursor children root := ⟨root, [], .root⟩

def Cursor.gotoFirstChild (c : Cursor children root) : Option (Cursor children root) :=
  match h : children c.node with
  | [] => none
  | child :: rest => some ⟨child, ⟨[], c.node, rest⟩ :: c.path, .child c.leads h⟩

/-- The next sibling is the first of those after the node. -/
theorem Leads.next {node next parent : T} {path : List (Crumb T)} {before rest : List T}
    (h : Leads children root node (⟨before, parent, next :: rest⟩ :: path)) :
    Leads children root next (⟨before ++ [node], parent, rest⟩ :: path) := by
  cases h with
  | child hup hsplit => exact .child hup (by rw [hsplit, List.append_assoc]; rfl)

theorem Leads.up {node : T} {crumb : Crumb T} {path : List (Crumb T)}
    (h : Leads children root node (crumb :: path)) : Leads children root crumb.parent path := by
  cases h with
  | child hup _ => exact hup

/-- The root has no sibling. -/
def Cursor.gotoNextSibling : Cursor children root → Option (Cursor children root)
  | ⟨_, [], _⟩ => none
  | ⟨_, ⟨_, _, []⟩ :: _, _⟩ => none
  | ⟨node, ⟨before, parent, next :: rest⟩ :: path, h⟩ =>
      some ⟨next, ⟨before ++ [node], parent, rest⟩ :: path, h.next⟩

/-- The root has no parent. -/
def Cursor.gotoParent : Cursor children root → Option (Cursor children root)
  | ⟨_, [], _⟩ => none
  | ⟨_, crumb :: path, h⟩ => some ⟨crumb.parent, path, h.up⟩

/-! ## §2. The walk. -/

/-- One turn of the loop that climbs: done at a sibling, or past the root. -/
def climbStep (c : Cursor children root) :
    Option (Turn (Cursor children root) (Option (Cursor children root))) :=
  match c.gotoNextSibling with
  | some c' => some (.done (some c'))
  | none =>
      match c.gotoParent with
      | some c' => some (.more c')
      | none => some (.done none)

/-- The loop: a turn for each level, and one at the root. -/
def climb (c : Cursor children root) : Option (Option (Cursor children root)) :=
  loop climbStep (c.path.length + 1) c

variable {σ : Type}

/-- One turn of the walk, from a cursor and what the visits have made so far. -/
def walkStep (visit : T → σ → σ) (st : Cursor children root × σ) :
    Option (Turn (Cursor children root × σ) σ) :=
  match st.1.gotoFirstChild with
  | some c' => some (.more (c', visit st.1.node st.2))
  | none =>
      match climb st.1 with
      | none => none
      | some none => some (.done (visit st.1.node st.2))
      | some (some c') => some (.more (c', visit st.1.node st.2))

/-- The walk, `fuel` nodes at most. -/
def walk (children : T → List T) (visit : T → σ → σ) (root : T) (fuel : Nat) (s : σ) : Option σ :=
  loop (walkStep visit) fuel (Cursor.start children root, s)

end Moves

/-! ## §3. What lies in front of the cursor. -/

section Order

variable {T σ : Type} {children : T → List T} {root : T} {order : T → List T}

/-- The trees of the siblings after the node, on every level. -/
def pending (order : T → List T) (path : List (Crumb T)) : List T :=
  path.flatMap fun crumb => crumb.after.flatMap order

/-- What a walk has still to visit. -/
def Cursor.ahead (order : T → List T) (c : Cursor children root) : List T :=
  order c.node ++ pending order c.path

theorem ahead_of_nextSibling {c c' : Cursor children root} (h : c.gotoNextSibling = some c') :
    pending order c.path = c'.ahead order := by
  obtain ⟨node, path, hleads⟩ := c
  cases path with
  | nil => cases h
  | cons crumb path =>
      obtain ⟨before, parent, after⟩ := crumb
      cases after with
      | nil => cases h
      | cons next rest =>
          cases h
          simp [pending, Cursor.ahead]

/-- Behind the last sibling nothing is left on the level. -/
theorem pending_of_parent {c c' : Cursor children root} (hlast : c.gotoNextSibling = none)
    (h : c.gotoParent = some c') :
    pending order c'.path = pending order c.path ∧ c'.path.length < c.path.length := by
  obtain ⟨node, path, hleads⟩ := c
  cases path with
  | nil => cases h
  | cons crumb path =>
      obtain ⟨before, parent, after⟩ := crumb
      cases h
      cases after with
      | nil => exact ⟨by simp [pending], Nat.lt_succ_self _⟩
      | cons next rest => cases hlast

theorem pending_of_root {c : Cursor children root} (h : c.gotoParent = none) :
    pending order c.path = [] := by
  obtain ⟨node, path, hleads⟩ := c
  cases path with
  | nil => rfl
  | cons crumb path => cases h

/-- Where climbing leads: to the rest, if there is one. -/
def ClimbedTo (order : T → List T) (rest : List T) : Option (Cursor children root) → Prop
  | some c => rest = c.ahead order
  | none => rest = []

/-- **Climbing** ends, at the first of what is pending. -/
theorem climb_spec (order : T → List T) (c : Cursor children root) :
    ∃ r, climb c = some r ∧ ClimbedTo order (pending order c.path) r := by
  have hstep : ∀ c' : Cursor children root, pending order c'.path = pending order c.path →
      TurnOk (fun c' => pending order (Cursor.path c') = pending order c.path)
        (fun c' => (Cursor.path c').length) (ClimbedTo order (pending order c.path)) c'
        (climbStep c') := by
    intro c' hc'
    unfold climbStep
    cases hnext : c'.gotoNextSibling with
    | some c'' =>
        show pending order c.path = c''.ahead order
        rw [← hc']
        exact ahead_of_nextSibling hnext
    | none =>
        cases hparent : c'.gotoParent with
        | some c'' =>
            obtain ⟨hsame, hlt⟩ := @pending_of_parent T children root order c' c'' hnext hparent
            exact ⟨hsame.trans hc', hlt⟩
        | none =>
            show pending order c.path = []
            rw [← hc']
            exact pending_of_root hparent
  exact loop_spec hstep _ c rfl (Nat.lt_succ_self _)

section Preorder

variable (horder : ∀ t, order t = t :: (children t).flatMap order)
include horder

theorem ahead_of_firstChild {c c' : Cursor children root} (h : c.gotoFirstChild = some c') :
    c.ahead order = c.node :: c'.ahead order := by
  unfold Cursor.gotoFirstChild at h
  split at h
  next => cases h
  next child rest hchildren =>
    cases h
    have hrest : order c.node = c.node :: (order child ++ rest.flatMap order) := by
      rw [horder c.node, hchildren, List.flatMap_cons]
    unfold Cursor.ahead
    rw [hrest]
    simp [pending]

theorem ahead_of_leaf {c : Cursor children root} (h : c.gotoFirstChild = none) :
    c.ahead order = c.node :: pending order c.path := by
  unfold Cursor.gotoFirstChild at h
  split at h
  next hchildren =>
    unfold Cursor.ahead
    rw [horder c.node, hchildren]
    rfl
  next => cases h

/-- **One turn of the walk** visits the first node ahead. -/
theorem walkStep_ok (visit : T → σ → σ) (whole : σ) (st : Cursor children root × σ)
    (hst : (st.1.ahead order).foldl (fun s t => visit t s) st.2 = whole) :
    TurnOk (fun st => (Cursor.ahead order st.1).foldl (fun s t => visit t s) st.2 = whole)
      (fun st => (Cursor.ahead order st.1).length) (fun r => r = whole) st (walkStep visit st) := by
  obtain ⟨c, s⟩ := st
  unfold walkStep
  cases hchild : c.gotoFirstChild with
  | some c' =>
      have hahead := ahead_of_firstChild horder hchild
      rw [hahead] at hst
      refine ⟨hst, ?_⟩
      show (c'.ahead order).length < (c.ahead order).length
      rw [hahead]
      exact Nat.lt_succ_self _
  | none =>
      have hahead := ahead_of_leaf horder hchild
      rw [hahead] at hst
      obtain ⟨r, hr, hclimbed⟩ := climb_spec order c
      simp only [hr]
      cases r with
      | none =>
          rw [show pending order c.path = [] from hclimbed] at hst
          exact hst
      | some c' =>
          rw [show pending order c.path = c'.ahead order from hclimbed] at hst hahead
          refine ⟨hst, ?_⟩
          show (c'.ahead order).length < (c.ahead order).length
          rw [hahead]
          exact Nat.lt_succ_self _

/-- **The walk ends, and visits the tree in preorder.** -/
theorem walk_eq (visit : T → σ → σ) (root : T) {fuel : Nat} (s : σ)
    (hfuel : (order root).length < fuel) :
    walk children visit root fuel s = some ((order root).foldl (fun s t => visit t s) s) := by
  have hstart : (Cursor.start children root).ahead order = order root := List.append_nil _
  obtain ⟨r, hr, heq⟩ := loop_spec
    (walkStep_ok horder visit ((order root).foldl (fun s t => visit t s) s)) fuel
    (Cursor.start children root, s) (by rw [hstart]) (by rw [hstart]; exact hfuel)
  rw [← heq]
  exact hr

end Preorder

end Order

end TreeCursor
