/-
  ShaderClippy.ControlFlow.LoopCover

  **WHICH STATEMENTS HAVE A LOOP HEADER ABOVE THEM IN THE DOMINATOR TREE.**

  A block is covered when the header of a closed loop dominates it: a loop
  whose way back is reached (`UnderLoop`). That is not the same as lying in
  the loop: behind a loop every block is covered, and a loop whose body ends
  in dead code covers nothing. `coveredSimples` reads off the statements
  whose home is covered, without the graph (`mem_coveredSimples`).
-/
import ShaderClippy.ControlFlow.BlockSpans
import ShaderClippy.ControlFlow.BodyGraph

namespace ShaderClippy.ControlFlow

open Graph

/-! ## §1. Covered statements. -/

mutual
/-- Is the cursor covered behind the statement?  `live`, `covered`: can it be
reached, and is it covered, in front of it. -/
def coveredAfter (live covered : Bool) : Stmt → Bool
  | .simple _ | .breakStmt _ | .continueStmt _ | .caseStmt .. | .ifThen .. | .ifElse .. => covered
  | .returnStmt .. | .switch .. => false
  | .compound _ body => coveredAfterAll live covered body
  | .forLoop _ _ _ _ body | .whileLoop _ _ body => covered || live && leadsThrough body
  | .doLoop _ body _ => live && leadsThrough body

def coveredAfterAll (live covered : Bool) : Stmts → Bool
  | .nil => covered
  | .cons s ss => coveredAfterAll (live && leadsThrough s) (coveredAfter live covered s) ss
end

mutual
/-- The simple statements whose home is covered; `home`: is the home around
covered?  The home of a loop is covered by the loop itself if its body leads
through, the home of an arm exactly if the place in front of the `if` is. -/
def coveredSimples (home live covered : Bool) : Stmt → List PlainNode
  | .simple m => if home then [m] else []
  | .compound _ body => coveredSimplesAll home live covered body
  | .ifThen _ _ thenStmt => coveredSimples covered live covered thenStmt
  | .ifElse _ _ thenStmt _ elseStmt =>
      coveredSimples covered live covered thenStmt ++ if covered then elseStmt.simples else []
  | .forLoop _ _ _ _ body | .whileLoop _ _ body | .doLoop _ body _ =>
      coveredSimples (covered || live && leadsThrough body) live
        (covered || live && leadsThrough body) body
  | .caseStmt _ _ body => if home then body.simples else []
  | .returnStmt .. | .breakStmt _ | .continueStmt _ | .switch .. => []

def coveredSimplesAll (home live covered : Bool) : Stmts → List PlainNode
  | .nil => []
  | .cons s ss =>
      coveredSimples home live covered s
        ++ coveredSimplesAll home (live && leadsThrough s) (coveredAfter live covered s) ss
end

/-! ## §2. What is reached. -/

section Cover

variable {E : Nat → Nat → Prop}

mutual
/-- What is reached behind a statement is led to. -/
theorem leadsThrough_of_reach {n cur : Nat} (s : Stmt)
    (h : Owns E (edges n cur s) n (n + size s)) (hn : 0 < n)
    (hreach : Reach E 0 (endBlock n cur s)) : leadsThrough s = true := by
  cases s with
  | simple _ | breakStmt _ | continueStmt _ | caseStmt _ _ _ => rfl
  | ifThen _ _ _ | ifElse _ _ _ _ _ | forLoop _ _ _ _ _ | whileLoop _ _ _ => rfl
  | returnStmt _ _ | switch _ _ _ _ =>
      have hnone : ∀ u, ¬ E u n := Owns.fresh h (Nat.le_refl n) (Nat.lt_succ_self n)
      change Reach E 0 n at hreach
      exact absurd hreach (not_reach_of_no_pred (Nat.ne_of_gt hn) hnone)
  | compound span body => exact leadsThroughAll_of_reach body h hn hreach
  | doLoop span body cond =>
      obtain ⟨-, hb, hcond, hexit⟩ := h.doLoop
      change Reach E 0 (n + 1 + size body + 1) at hreach
      obtain ⟨p, hp, hreachp⟩ := (reach_iff_pred (by omega)).mp hreach
      rw [(hexit p).mp hp] at hreachp
      obtain ⟨q, hq, hreachq⟩ := (reach_iff_pred (by omega)).mp hreachp
      rw [(hcond q).mp hq] at hreachq
      exact leadsThrough_of_reach body hb (by omega) hreachq

theorem leadsThroughAll_of_reach {n cur : Nat} (ss : Stmts)
    (h : Owns E (edgesAll n cur ss) n (n + sizeAll ss)) (hn : 0 < n)
    (hreach : Reach E 0 (endBlockAll n cur ss)) : leadsThroughAll ss = true := by
  cases ss with
  | nil => rfl
  | cons s ss =>
      obtain ⟨hs, hss⟩ := h.seq
      have hrest := leadsThroughAll_of_reach ss hss (by omega) hreach
      have hfirst := leadsThrough_of_reach s hs hn ((hss.dom_endBlockAll (by omega)).reach hreach)
      unfold leadsThroughAll
      rw [hfirst, hrest]
      rfl
end

/-- **Behind a statement**: reached exactly if its beginning is, and it leads
through. -/
theorem reach_endBlock {n cur : Nat} (s : Stmt) (h : Owns E (edges n cur s) n (n + size s))
    (hn : 0 < n) : Reach E 0 (endBlock n cur s) ↔ Reach E 0 cur ∧ leadsThrough s = true := by
  constructor
  · intro hreach
    exact ⟨(h.dom_endBlock hn).reach hreach, leadsThrough_of_reach s h hn hreach⟩
  · intro ⟨hcur, hthrough⟩
    exact hcur.trans (leadsThrough_reach s (fun _ _ he => h.edge he) hthrough)

/-! ## §3. What is covered. -/

/-- What is known of a block: is it reached, is it covered? -/
structure Flags (E : Nat → Nat → Prop) (b : Nat) (live covered : Bool) : Prop where
  live : Reach E 0 b ↔ live = true
  covered : UnderLoop E 0 b ↔ covered = true

variable {n cur : Nat} {live covered : Bool}

/-- A block that no edge enters. -/
theorem Flags.fresh {b : Nat} (hb : 0 < b) (h : ∀ u, ¬ E u b) : Flags E b false false := by
  have hnot : ¬ Reach E 0 b := not_reach_of_no_pred (by omega) h
  exact ⟨⟨fun hr => absurd hr hnot, nofun⟩, ⟨fun hu => absurd hu.1 hnot, nofun⟩⟩

/-- A block entered from below only, by what `c` dominates: it is like `c`, if
its predecessor `q` is. -/
theorem Flags.join {b c q : Nat} (ha : Ascending E 0) (hb : 0 < b)
    (hpreds : ∀ u, E u b → u < b ∧ Dom E 0 c u) (hq : E q b) (hfq : Flags E q live covered)
    (hfc : Flags E c live covered) : Flags E b live covered := by
  have hdom : Dom E 0 c b := Dom.of_preds (by omega) fun p hp => (hpreds p hp).2
  constructor
  · constructor
    · intro hreach
      exact hfc.live.mp (hdom.reach hreach)
    · intro hlive
      exact (hfq.live.mpr hlive).tail hq
  · rw [← hfc.covered]
    refine underLoop_iff ha (fun u hu => (hpreds u hu).1) hq hdom (fun hc => ?_) fun hu => ?_
    · exact hfq.live.mpr (hfc.live.mp hc)
    · exact hfc.covered.mpr (hfq.covered.mp hu)

/-- A block with one predecessor. -/
theorem Flags.next {b p : Nat} (ha : Ascending E 0) (hlt : p < b) (hpred : ∀ u, E u b ↔ u = p)
    (hf : Flags E p live covered) : Flags E b live covered := by
  refine Flags.join ha (by omega) (fun u hu => ?_) ((hpred p).mpr rfl) hf hf
  rw [(hpred u).mp hu]
  exact ⟨hlt, Dom.refl p⟩

/-- A loop header, entered from `p` and closed from `t`. -/
theorem Flags.header {b p t : Nat} {closed : Bool} (ha : Ascending E 0) (hlt : p < b)
    (hpreds : ∀ u, E u b ↔ u = p ∨ u = t) (hpb : Dom E 0 p b) (hbt : Dom E 0 b t)
    (hf : Flags E p live covered) (ht : Reach E 0 t ↔ (live && closed) = true) :
    Flags E b live (covered || live && closed) := by
  have hp : E p b := (hpreds p).mpr (Or.inl rfl)
  constructor
  · constructor
    · intro hreach
      exact hf.live.mp (hpb.reach hreach)
    · intro hlive
      exact (hf.live.mpr hlive).tail hp
  · rw [underLoop_header ha (fun u hu => (hpreds u).mp hu) hp ((hpreds t).mpr (Or.inr rfl)) hlt
      hpb hbt, hf.covered, ht, Bool.or_eq_true]

/-! ## §4. One statement. -/

/-- The arm and the join of an `if` are like the cursor. -/
theorem Flags.ifThen {span : ByteSpan} {cond : PlainNode} {t : Stmt} (ha : Ascending E 0)
    (h : Owns E (edges n cur (.ifThen span cond t)) n (n + (size t + 2))) (hcur : cur < n)
    (hf : Flags E cur live covered) :
    Flags E n live covered ∧ Flags E (n + 1 + size t) live covered := by
  obtain ⟨hthen, ht, hjoin⟩ := h.ifThen
  have hend := endBlock_inPart (n + 1) n t
  unfold InPart at hend
  have hfirst : Dom E 0 cur n := by
    refine Dom.of_preds (by omega) fun p hp => ?_
    rw [(hthen p).mp hp]
    exact Dom.refl cur
  have hdom := hfirst.trans (ht.dom_endBlock (by omega))
  refine ⟨Flags.next ha hcur hthen hf, Flags.join (q := cur) ha (by omega) (fun u hu => ?_)
    ((hjoin cur).mpr (Or.inr rfl)) hf hf⟩
  rcases (hjoin u).mp hu with rfl | rfl
  · exact ⟨by omega, hdom⟩
  · exact ⟨by omega, Dom.refl u⟩

/-- So are both arms. -/
theorem Flags.ifElse {span elseSpan : ByteSpan} {cond : PlainNode} {t e : Stmt}
    (ha : Ascending E 0)
    (h : Owns E (edges n cur (.ifElse span cond t elseSpan e)) n (n + (size t + 3)))
    (hcur : cur < n) (hf : Flags E cur live covered) :
    Flags E n live covered ∧ Flags E (n + 1 + size t) live covered
      ∧ Flags E (n + 1 + size t + 1) live covered := by
  obtain ⟨hthen, ht, helse, hjoin⟩ := h.ifElse
  have hend := endBlock_inPart (n + 1) n t
  unfold InPart at hend
  have hfirst : Dom E 0 cur n := by
    refine Dom.of_preds (by omega) fun p hp => ?_
    rw [(hthen p).mp hp]
    exact Dom.refl cur
  have helseDom : Dom E 0 cur (n + 1 + size t) := by
    refine Dom.of_preds (by omega) fun p hp => ?_
    rw [(helse p).mp hp]
    exact Dom.refl cur
  have hdom := hfirst.trans (ht.dom_endBlock (by omega))
  have hfelse : Flags E (n + 1 + size t) live covered := Flags.next ha (by omega) helse hf
  refine ⟨Flags.next ha hcur hthen hf, hfelse, Flags.join ha (by omega) (fun u hu => ?_)
    ((hjoin _).mpr (Or.inr rfl)) hfelse hf⟩
  rcases (hjoin u).mp hu with rfl | rfl
  · exact ⟨by omega, hdom⟩
  · exact ⟨by omega, helseDom⟩

/-- A `for` or `while` covers its header, its body and what comes behind it,
if the body leads back. -/
theorem Flags.loop {body : Stmt} (ha : Ascending E 0)
    (h : Owns E ([(cur, n), (n, n + 1)] ++ edges (n + 2) (n + 1) body
      ++ [(endBlock (n + 2) (n + 1) body, n), (n, n + 2 + size body)]) n (n + (size body + 3)))
    (hcur : cur < n) (hf : Flags E cur live covered) :
    Flags E n live (covered || live && leadsThrough body)
      ∧ Flags E (n + 1) live (covered || live && leadsThrough body)
      ∧ Flags E (n + 2 + size body) live (covered || live && leadsThrough body) := by
  obtain ⟨hheader, hfirst, hb, hexit⟩ := h.loop
  have hn : 0 < n := by omega
  have hcurDom : Dom E 0 cur n :=
    h.dom (fun _ _ he => (loopEdges_range (edges_range body) he).1) hn (Or.inr ⟨Nat.le_refl n, by omega⟩)
  have hlatch : Reach E 0 (endBlock (n + 2) (n + 1) body)
      ↔ (live && leadsThrough body) = true := by
    rw [reach_endBlock body hb (by omega), Bool.and_eq_true, reach_iff_pred (by omega), ← hf.live]
    constructor
    · intro ⟨⟨p, hp, hreach⟩, hthrough⟩
      rw [(hfirst p).mp hp] at hreach
      exact ⟨hcurDom.reach hreach, hthrough⟩
    · intro ⟨hreach, hthrough⟩
      have hcurE : E cur n := (hheader cur).mpr (Or.inl rfl)
      exact ⟨⟨n, (hfirst n).mpr rfl, hreach.tail hcurE⟩, hthrough⟩
  have hfh := Flags.header ha hcur hheader hcurDom (Owns.dom_loop hn hfirst hb) hf hlatch
  exact ⟨hfh, Flags.next ha (by omega) hfirst hfh, Flags.next ha (by omega) hexit hfh⟩

/-- A `do` covers its body and what comes behind it, if the body leads to the
condition; else nothing behind it is reached. -/
theorem Flags.doLoop {span : ByteSpan} {cond : PlainNode} {body : Stmt} (ha : Ascending E 0)
    (h : Owns E (edges n cur (.doLoop span body cond)) n (n + (size body + 3))) (hcur : cur < n)
    (hf : Flags E cur live covered) :
    Flags E n live (covered || live && leadsThrough body)
      ∧ Flags E (n + 1 + size body + 1) (live && leadsThrough body)
          (live && leadsThrough body) := by
  obtain ⟨hheader, hb, hcond, hexit⟩ := h.doLoop
  have hn : 0 < n := by omega
  have hend := endBlock_inPart (n + 1) n body
  unfold InPart at hend
  have hcurDom : Dom E 0 cur n :=
    h.dom (fun _ _ he => (edges_range (.doLoop span body cond) he).1) hn
      (Or.inr ⟨Nat.le_refl n, by omega⟩)
  have hcondDom := Owns.dom_do hn hb hcond
  have hlatch : Reach E 0 (n + 1 + size body) ↔ (live && leadsThrough body) = true := by
    have hthrough := reach_endBlock body hb (by omega)
    rw [reach_iff_pred (by omega), Bool.and_eq_true, ← hf.live]
    constructor
    · intro ⟨p, hp, hreach⟩
      rw [(hcond p).mp hp, hthrough] at hreach
      exact ⟨hcurDom.reach hreach.1, hreach.2⟩
    · intro ⟨hreach, hleads⟩
      have hcurE : E cur n := (hheader cur).mpr (Or.inl rfl)
      exact ⟨_, (hcond _).mpr rfl, hthrough.mpr ⟨hreach.tail hcurE, hleads⟩⟩
  have hfcond : Flags E (n + 1 + size body) (live && leadsThrough body)
      (live && leadsThrough body) := by
    refine ⟨hlatch, ?_⟩
    rw [← hlatch]
    constructor
    · exact fun hu => hu.1
    · intro hreach
      exact ⟨hreach, _, n, (hheader _).mpr (Or.inr rfl), hreach, hcondDom, hcondDom⟩
  exact ⟨Flags.header ha hcur hheader hcurDom hcondDom hf hlatch,
    Flags.next ha (by omega) hexit hfcond⟩

mutual
/-- **What the walk of a statement does to the flags of its cursor.** -/
theorem flags_after {n cur : Nat} {live covered : Bool} (ha : Ascending E 0) (s : Stmt)
    (h : Owns E (edges n cur s) n (n + size s)) (hcur : cur < n)
    (hf : Flags E cur live covered) :
    Flags E (endBlock n cur s) (live && leadsThrough s) (coveredAfter live covered s) := by
  have hn : 0 < n := by omega
  cases s with
  | simple _ | breakStmt _ | continueStmt _ | caseStmt _ _ _ =>
      have hsame : Flags E cur (live && true) covered := by
        rw [Bool.and_true]
        exact hf
      exact hsame
  | returnStmt _ _ | switch _ _ _ _ =>
      have hfresh : Flags E n (live && false) false := by
        rw [Bool.and_false]
        exact Flags.fresh hn (Owns.fresh h (Nat.le_refl n) (Nat.lt_succ_self n))
      exact hfresh
  | compound span body => exact flags_afterAll ha body h hcur hf
  | ifThen span cond t =>
      have hjoin : Flags E (n + 1 + size t) (live && true) covered := by
        rw [Bool.and_true]
        exact (Flags.ifThen ha h hcur hf).2
      exact hjoin
  | ifElse span cond t elseSpan e =>
      have hjoin : Flags E (n + 1 + size t + 1) (live && true) covered := by
        rw [Bool.and_true]
        exact (Flags.ifElse ha h hcur hf).2.2
      exact hjoin
  | forLoop span _ _ _ body | whileLoop span _ body =>
      have hexit : Flags E (n + 2 + size body) (live && true)
          (covered || live && leadsThrough body) := by
        rw [Bool.and_true]
        exact (Flags.loop ha h hcur hf).2.2
      exact hexit
  | doLoop span body cond => exact (Flags.doLoop ha h hcur hf).2

theorem flags_afterAll {n cur : Nat} {live covered : Bool} (ha : Ascending E 0) (ss : Stmts)
    (h : Owns E (edgesAll n cur ss) n (n + sizeAll ss)) (hcur : cur < n)
    (hf : Flags E cur live covered) :
    Flags E (endBlockAll n cur ss) (live && leadsThroughAll ss)
      (coveredAfterAll live covered ss) := by
  cases ss with
  | nil =>
      have hsame : Flags E cur (live && true) covered := by
        rw [Bool.and_true]
        exact hf
      exact hsame
  | cons s ss =>
      obtain ⟨hs, hss⟩ := h.seq
      have hend := endBlock_inPart n cur s
      unfold InPart at hend
      have hfirst := flags_after ha s hs hcur hf
      have hrest := flags_afterAll ha ss hss (by omega) hfirst
      rw [Bool.and_assoc] at hrest
      exact hrest
end

/-! ## §5. Statements and their homes. -/

/-- Statements that share a home. -/
theorem covered_shared {l : List PlainNode} {home : Bool} {h : Option Nat} {m : PlainNode}
    (hhome : home = true ↔ ∃ b, h = some b ∧ UnderLoop E 0 b) :
    (m ∈ if home then l else [])
      ↔ ∃ b, (m, some b) ∈ l.map (fun m => (m, h)) ∧ UnderLoop E 0 b := by
  have hmem : ∀ b, (m, some b) ∈ l.map (fun m => (m, h)) ↔ m ∈ l ∧ h = some b := by
    intro b
    simp only [List.mem_map, Prod.mk.injEq]
    constructor
    · intro ⟨m', hm', heq, hb⟩
      rw [← heq]
      exact ⟨hm', hb⟩
    · intro ⟨hm, hb⟩
      exact ⟨m, hm, rfl, hb⟩
  cases home with
  | true =>
      obtain ⟨b, hb, hu⟩ := hhome.mp rfl
      constructor
      · intro hm
        exact ⟨b, (hmem b).mpr ⟨hm, hb⟩, hu⟩
      · intro ⟨b', hm, _⟩
        exact ((hmem b').mp hm).1
  | false =>
      constructor
      · intro hm
        exact absurd hm List.not_mem_nil
      · intro ⟨b', hm, hu⟩
        exact absurd (hhome.mpr ⟨b', ((hmem b').mp hm).2, hu⟩) nofun

/-- A block as a home. -/
theorem Flags.home {b : Nat} (hf : Flags E b live covered) :
    covered = true ↔ ∃ b', some b = some b' ∧ UnderLoop E 0 b' := by
  rw [← hf.covered]
  constructor
  · intro hu
    exact ⟨b, rfl, hu⟩
  · intro ⟨b', heq, hu⟩
    cases heq
    exact hu

mutual
/-- **The covered statements are those whose home has a loop header above
it.** -/
theorem mem_coveredSimples {n cur : Nat} {live covered home : Bool} {h : Option Nat}
    (ha : Ascending E 0) (s : Stmt) (ho : Owns E (edges n cur s) n (n + size s)) (hcur : cur < n)
    (hf : Flags E cur live covered) (hhome : home = true ↔ ∃ b, h = some b ∧ UnderLoop E 0 b)
    (m : PlainNode) :
    m ∈ coveredSimples home live covered s ↔ ∃ b, (m, some b) ∈ homes n h s ∧ UnderLoop E 0 b := by
  cases s with
  | simple m' => exact covered_shared (l := [m']) hhome
  | caseStmt span label body => exact covered_shared hhome
  | returnStmt _ _ | breakStmt _ | continueStmt _ =>
      constructor
      · intro hm
        exact absurd hm List.not_mem_nil
      · intro ⟨b, hm, _⟩
        exact absurd hm List.not_mem_nil
  | switch span cond bodySpan body =>
      -- the block of a `switch` is not reached
      have hfresh : Flags E n false false :=
        Flags.fresh (by omega) (Owns.fresh ho (Nat.le_refl n) (Nat.lt_succ_self n))
      exact covered_shared (l := body.simples) hfresh.home
  | compound span body => exact mem_coveredSimplesAll ha body ho hcur hf hhome m
  | ifThen span cond t =>
      obtain ⟨-, ht, -⟩ := Owns.ifThen ho
      have hthen := (Flags.ifThen ha ho hcur hf).1
      exact mem_coveredSimples ha t ht (by omega) hthen hthen.home m
  | ifElse span cond t elseSpan e =>
      obtain ⟨-, ht, -, -⟩ := Owns.ifElse ho
      obtain ⟨hthen, helse, -⟩ := Flags.ifElse ha ho hcur hf
      have harm := mem_coveredSimples ha t ht (by omega) hthen hthen.home m
      have helseArm := covered_shared (l := e.simples) (m := m) helse.home
      unfold coveredSimples homes
      simp only [List.mem_append, or_and_right, exists_or]
      rw [harm, helseArm]
  | forLoop span _ _ _ body | whileLoop span _ body =>
      obtain ⟨-, -, hb, -⟩ := Owns.loop ho
      obtain ⟨hheader, hfirst, -⟩ := Flags.loop ha ho hcur hf
      exact mem_coveredSimples ha body hb (by omega) hfirst hheader.home m
  | doLoop span body cond =>
      obtain ⟨-, hb, -, -⟩ := Owns.doLoop ho
      have hheader := (Flags.doLoop ha ho hcur hf).1
      exact mem_coveredSimples ha body hb (by omega) hheader hheader.home m

theorem mem_coveredSimplesAll {n cur : Nat} {live covered home : Bool} {h : Option Nat}
    (ha : Ascending E 0) (ss : Stmts) (ho : Owns E (edgesAll n cur ss) n (n + sizeAll ss))
    (hcur : cur < n) (hf : Flags E cur live covered)
    (hhome : home = true ↔ ∃ b, h = some b ∧ UnderLoop E 0 b) (m : PlainNode) :
    m ∈ coveredSimplesAll home live covered ss
      ↔ ∃ b, (m, some b) ∈ homesAll n h ss ∧ UnderLoop E 0 b := by
  cases ss with
  | nil =>
      constructor
      · intro hm
        exact absurd hm List.not_mem_nil
      · intro ⟨b, hm, _⟩
        exact absurd hm List.not_mem_nil
  | cons s ss =>
      obtain ⟨hs, hss⟩ := ho.seq
      have hend := endBlock_inPart n cur s
      unfold InPart at hend
      have hfirst := mem_coveredSimples ha s hs hcur hf hhome m
      have hrest := mem_coveredSimplesAll ha ss hss (by omega) (flags_after ha s hs hcur hf)
        hhome m
      unfold coveredSimplesAll homesAll
      simp only [List.mem_append, or_and_right, exists_or]
      rw [hfirst, hrest]
end

/-- The entry is reached, and no loop is over it. -/
theorem flags_entry (hentry : ∀ u, ¬ E u 0) : Flags E 0 true false := by
  refine ⟨⟨fun _ => rfl, fun _ => Relation.ReflTransGen.refl⟩, fun hu => ?_, nofun⟩
  obtain ⟨-, t, x, he, -, -, hx⟩ := hu
  rw [hx.eq_root] at he
  exact absurd he (hentry t)

end Cover

end ShaderClippy.ControlFlow
