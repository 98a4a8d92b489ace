/-
  ShaderClippy.ControlFlow.LaneSecurity

  **A STEADY BODY IS SECURE.**

  Lanes that start alike in the names the analyzer takes for uniform agree
  on every expression it does not take for divergent, whenever they evaluate
  it together. The proof is one rule of `Lib.Lockstep` for each form of
  statement.
-/
import ShaderClippy.ControlFlow.Steady
import ShaderClippy.ControlFlow.UniformityTable

namespace ShaderClippy.ControlFlow

open Lockstep

/-! ## §1. What the class of a node says about its operands. -/

/-- `divergent` wins. -/
theorem Uniformity.join_eq_divergent {u v : Uniformity} :
    u.join v = .divergent ↔ u = .divergent ∨ v = .divergent := by
  cases u <;> cases v <;> decide

/-- A join with a divergent part is divergent. -/
theorem foldl_join_divergent {α : Type} {f : α → Uniformity} {a : α} :
    ∀ (as : List α) (u : Uniformity), (u = .divergent ∨ a ∈ as ∧ f a = .divergent) →
      as.foldl (fun u a => u.join (f a)) u = .divergent := by
  intro as
  induction as with
  | nil =>
      intro u h
      exact h.resolve_right fun h => absurd h.1 List.not_mem_nil
  | cons b bs ih =>
      intro u h
      refine ih _ ?_
      rw [Uniformity.join_eq_divergent]
      rcases h with h | ⟨hmem, h⟩
      · exact Or.inl (Or.inl h)
      · rcases List.mem_cons.mp hmem with rfl | hmem
        · exact Or.inl (Or.inr h)
        · exact Or.inr ⟨hmem, h⟩

section Classes

variable {div : List Text} {bytes : Text} {i : NodeInfo} {cs : List Node}

/-- An operator with a divergent operand is divergent. -/
theorem operand_steady (hnamed : i.named = true) (hk : isOperator i.kind = true)
    (h : divergentNode div bytes (.mk i cs) = false) :
    ∀ c ∈ cs, c.info.named = true → divergentNode div bytes c = false := by
  intro c hc hcn
  refine Bool.eq_false_iff.mpr fun hdiv => ?_
  have hjoin : (classify div bytes (.mk i cs)).1 = .divergent := by
    rw [classify_operator hnamed hk, classifyOperands_fst]
    exact foldl_join_divergent _ _
      (Or.inr ⟨List.mem_filter.mpr ⟨hc, hcn⟩, of_decide_eq_true hdiv⟩)
  exact absurd (decide_eq_true hjoin) (Bool.eq_false_iff.mp h)

end Classes

/-! ## §2. Expressions. -/

section Expressions

variable {ι V : Type} {M : Machine ι V} {div : List Text} {bytes : Text} {low : Node → Prop}
  {frozen : Text → Bool} {mask : Mask ι} {w : Wave ι Text V}

/-- What is observed below a node is not divergent. -/
def Trusted (low : Node → Prop) (div : List Text) (bytes : Text) (n : Node) : Prop :=
  ∀ m, m.Sub n → m.info.named = true → low m → divergentNode div bytes m = false

theorem Trusted.child {i : NodeInfo} {cs : List Node} (h : Trusted low div bytes (.mk i cs)) :
    ∀ c ∈ cs, Trusted low div bytes c :=
  fun _ hc m hm => h m (.child hc hm)

/-- A node ends its evaluation: its own event, its own writes. -/
theorem conclude_secure {u : Prop} {n : Node} {value : ι → V} {new : Text → ι → V}
    {r : Reading ι Text V Node (Operands V)}
    (hr : ReadPost (SharedName div) low frozen u mask w r)
    (hlow : low n → divergentNode div bytes n = false)
    (hwrites : writesSteadily M.toDialect div bytes frozen n = true)
    (hvalue : divergentNode div bytes n = false →
      ∀ l m, mask l = true → mask m = true → value l = value m)
    (hnew : divergentNode div bytes n = false → ∀ x, SharedName div x →
      ∀ l m, mask l = true → mask m = true → new x l = new x m) :
    ReadPost (SharedName div) low frozen (divergentNode div bytes n = false) mask w
      (conclude M bytes n mask value new r) := by
  -- a shared name is written only by a node that is not divergent, and only if it is not frozen
  have hshared : ∀ {l x}, SharedName div x →
      (mask l && (M.writtenNames bytes n).contains x) = true →
        divergentNode div bytes n = false ∧ frozen x = false := by
    intro l x hx hc
    have hmem := List.contains_iff_mem.mp ((Bool.and_eq_true _ _).mp hc).2
    have := List.all_eq_true.mp hwrites x hmem
    rw [show divergentName div x = false from hx, Bool.false_or] at this
    simpa using this
  refine ⟨fun e he hl => ?_, fun l hl => funext fun x => ?_, fun l x hx hf => ?_,
    fun l m hl hm x hx => ?_, hvalue⟩
  · rcases List.mem_append.mp he with he | he
    · exact hr.good e he hl
    · rw [List.mem_singleton.mp he] at hl ⊢
      exact hvalue (hlow hl)
  · show (if mask l && (M.writtenNames bytes n).contains x then new x l else r.wave l x) = w l x
    rw [hl, Bool.false_and, if_neg nofun, hr.idle l hl]
  · show (if mask l && (M.writtenNames bytes n).contains x then new x l else r.wave l x) = w l x
    rw [if_neg fun hc => ?_, hr.kept l x hx hf]
    rw [(hshared hx hc).2] at hf
    cases hf
  · show (if mask l && (M.writtenNames bytes n).contains x then new x l else r.wave l x)
      = if mask m && (M.writtenNames bytes n).contains x then new x m else r.wave m x
    rw [hl, hm, Bool.true_and]
    by_cases hc : (M.writtenNames bytes n).contains x = true
    · rw [if_pos hc, if_pos hc]
      exact hnew (hshared (l := l) hx (by rw [hl, hc]; rfl)).1 x hx l m hl hm
    · rw [if_neg hc, if_neg hc]
      exact hr.alike l m hl hm x hx

/-- An operator. -/
theorem operator_secure {u : Prop} {n : Node} {r : Reading ι Text V Node (Operands V)}
    (hr : ReadPost (SharedName div) low frozen u mask w r)
    (hu : divergentNode div bytes n = false → u)
    (hlow : low n → divergentNode div bytes n = false)
    (hwrites : writesSteadily M.toDialect div bytes frozen n = true) :
    ReadPost (SharedName div) low frozen (divergentNode div bytes n = false) mask w
      (concludeOperator M bytes n mask r) := by
  refine conclude_secure hr hlow hwrites (fun hn l m hl hm => ?_) (fun hn x hx l m hl hm => ?_)
  · show M.apply n (r.value l) = M.apply n (r.value m)
    rw [hr.agree (hu hn) l m hl hm]
  · show M.written n x (r.wave l x) (r.value l) = M.written n x (r.wave m x) (r.value m)
    rw [hr.agree (hu hn) l m hl hm, hr.alike l m hl hm x hx]

/-- A call. -/
theorem call_secure {u : Prop} {n : Node} {r : Reading ι Text V Node (Operands V)}
    (hr : ReadPost (SharedName div) low frozen u mask w r)
    (hu : divergentNode div bytes n = false → u ∧ M.laneFree (calleeText bytes n) = true)
    (hlow : low n → divergentNode div bytes n = false)
    (hwrites : writesSteadily M.toDialect div bytes frozen n = true) :
    ReadPost (SharedName div) low frozen (divergentNode div bytes n = false) mask w
      (concludeCall M bytes n mask r) := by
  refine conclude_secure hr hlow hwrites (fun hn l m hl hm => ?_) (fun hn x hx l m hl hm => ?_)
  · obtain ⟨hu, hfree⟩ := hu hn
    exact M.call_laneFree _ hfree mask _ l m hl hm fun k hk => hr.agree hu k l hk hl
  · obtain ⟨hu, hfree⟩ := hu hn
    exact M.callWritten_laneFree _ hfree x mask _ _ l m hl hm fun k hk =>
      ⟨hr.agree hu k l hk hl, hr.alike k l hk hl x hx⟩

/-- A leaf: it writes nothing. -/
theorem leaf_secure {n : Node} {value : ι → V} (hw : Gathered (SharedName div) mask w)
    (hlow : low n → divergentNode div bytes n = false)
    (hvalue : divergentNode div bytes n = false →
      ∀ l m, mask l = true → mask m = true → value l = value m) :
    ReadPost (SharedName div) low frozen (divergentNode div bytes n = false) mask w
      ⟨[⟨n, mask, value⟩], w, value⟩ := by
  refine ⟨fun e he hl => ?_, fun _ _ => rfl, fun _ _ _ _ => rfl, hw, hvalue⟩
  rw [List.mem_singleton.mp he] at hl ⊢
  exact hvalue (hlow hl)

/-! The parts of `eval` and of the discipline, one lemma a form of node. -/

theorem eval_operator {i : NodeInfo} {cs : List Node} (hk : isOperator i.kind = true) :
    eval M bytes (.mk i cs) mask w
      = concludeOperator M bytes (.mk i cs) mask
          (evalOperands M bytes (M.short (.mk i cs)) (.mk i cs) (fun _ => []) cs mask w) := by
  unfold eval
  split <;> first | rfl | simp_all [isOperator]

theorem steady_operator {d : Dialect} {i : NodeInfo} {cs : List Node}
    (hk : isOperator i.kind = true) :
    steadyNode d div bytes frozen (.mk i cs)
      = (writesSteadily d div bytes frozen (.mk i cs)
          && steadyOperands d div bytes frozen (d.short (.mk i cs)) false cs) := by
  unfold steadyNode
  split <;> first | rfl | simp_all [isOperator]

theorem eval_literal {i : NodeInfo} {cs : List Node} (hk : isLiteral i.kind = true) :
    eval M bytes (.mk i cs) mask w
      = ⟨[⟨.mk i cs, mask, fun _ => M.literal i.kind (textAt bytes i.lo i.hi)⟩], w,
          fun _ => M.literal i.kind (textAt bytes i.lo i.hi)⟩ := by
  unfold eval
  split <;> first | rfl | simp_all [isLiteral]

/-- One operand, evaluated by the lanes that do not skip it. -/
theorem operand_secure {short apart : Bool} {n c : Node} {vs : ι → Operands V} {u : Prop}
    (hc : SecureQuery (SharedName div) low (fun x => frozen x || (short && apart)) u
      (eval M bytes c))
    (hw : Gathered (SharedName div) mask w)
    (hvs : short = true → apart = false → ∀ l m, mask l = true → mask m = true → vs l = vs m) :
    ReadPost (SharedName div) low frozen ((short && apart) = false ∧ u) mask w
      (Query.only (fun l => !short || M.proceeds n (vs l)) (eval M bytes c) mask w) := by
  refine ReadPost.only hc hw fun hsa l m hl hm => ?_
  cases short with
  | false => rfl
  | true =>
      rw [Bool.true_and] at hsa
      rw [hvs rfl hsa l m hl hm]

/-- What a call does, in one step. -/
theorem eval_call {i : NodeInfo} {cs : List Node} (hk : i.kind = .callExpression) :
    eval M bytes (.mk i cs) mask w
      = let r := evalCallee M bytes (.mk i cs) cs mask w
        let s := evalArguments M bytes (.mk i cs) r.value cs mask r.wave
        concludeCall M bytes (.mk i cs) mask ⟨r.events ++ s.events, s.wave, s.value⟩ := by
  unfold eval
  rw [hk]

theorem steady_call {d : Dialect} {i : NodeInfo} {cs : List Node}
    (hk : i.kind = .callExpression) :
    steadyNode d div bytes frozen (.mk i cs)
      = (writesSteadily d div bytes frozen (.mk i cs) && callSteady d div bytes (.mk i cs)
          && steadyPart d div bytes frozen .function cs
          && steadyPart d div bytes frozen .arguments cs) := by
  unfold steadyNode
  rw [hk]

/-- The named nodes below the child of a field. -/
def partOperands (f : Field) : List Node → List Node
  | [] => []
  | .mk i cs :: ns => if i.field = some f then cs.filter fun c => c.info.named else partOperands f ns

/-- A call that is not divergent has a callee and operands that are not. -/
theorem call_operands {d : Dialect} {i : NodeInfo} {cs : List Node}
    (h : callSteady d div bytes (.mk i cs) = true)
    (hn : divergentNode div bytes (.mk i cs) = false) :
    d.laneFree (calleeText bytes (.mk i cs)) = true
      ∧ (∀ c ∈ partOperands .function cs, divergentNode div bytes c = false)
      ∧ ∀ c ∈ partOperands .arguments cs, divergentNode div bytes c = false := by
  have hpart : ∀ (f : Field) (ns : List Node), ∀ c ∈ partOperands f ns,
      ∃ p, (ns.find? fun c => decide (c.info.field = some f)) = some p ∧ c ∈ p.namedChildren := by
    intro f ns
    induction ns with
    | nil => exact fun c hc => absurd hc List.not_mem_nil
    | cons n ns ih =>
        intro c hc
        cases n with
        | mk j js =>
            unfold partOperands at hc
            by_cases hf : j.field = some f
            · rw [if_pos hf] at hc
              exact ⟨.mk j js, List.find?_cons_of_pos (decide_eq_true hf), hc⟩
            · rw [if_neg hf] at hc
              obtain ⟨p, hp, hmem⟩ := ih c hc
              refine ⟨p, ?_, hmem⟩
              rw [List.find?_cons, show decide ((Node.mk j js).info.field = some f) = false
                from decide_eq_false hf]
              exact hp
  unfold callSteady at h
  rw [hn, Bool.false_or, Bool.and_eq_true, List.all_eq_true] at h
  refine ⟨h.1, fun c hc => ?_, fun c hc => ?_⟩
  · obtain ⟨p, hp, hmem⟩ := hpart _ _ c hc
    have hfound : (Node.mk i cs).childByField .function = some p := hp
    have hsteady := h.2 c (List.mem_append_left _ (by rw [hfound]; exact hmem))
    simpa using hsteady
  · obtain ⟨p, hp, hmem⟩ := hpart _ _ c hc
    have hfound : (Node.mk i cs).childByField .arguments = some p := hp
    have hsteady := h.2 c (List.mem_append_right _ (by rw [argumentNodes, hfound]; exact hmem))
    simpa using hsteady

mutual
/-- **A steady expression is secure.** -/
theorem secure_eval : ∀ (n : Node) (frozen : Text → Bool), n.info.named = true →
    Trusted low div bytes n → steadyNode M.toDialect div bytes frozen n = true →
    SecureQuery (SharedName div) low frozen (divergentNode div bytes n = false) (eval M bytes n)
  | .mk i cs, frozen, hnamed, htrust, hst => by
      intro mask w hw
      have hlow : low (.mk i cs) → divergentNode div bytes (.mk i cs) = false :=
        htrust _ .refl hnamed
      rcases kind_cases i.kind with hk | hk | hk | hk
      · rw [eval_literal hk]
        exact leaf_secure hw hlow fun _ _ _ _ _ => rfl
      · have heval : eval M bytes (.mk i cs) mask w
            = ⟨[⟨.mk i cs, mask, fun l => w l (textAt bytes i.lo i.hi)⟩], w,
                fun l => w l (textAt bytes i.lo i.hi)⟩ := by
          unfold eval
          rw [hk]
        rw [heval]
        refine leaf_secure hw hlow fun hn l m hl hm => hw l m hl hm _ ?_
        show decide (classifyIdentifier div (textAt bytes i.lo i.hi) = .divergent) = false
        have hclass : (classify div bytes (.mk i cs)).1 = _ := classify_identifier hnamed hk
        rw [← hclass]
        exact hn
      · rw [steady_call hk, Bool.and_eq_true, Bool.and_eq_true, Bool.and_eq_true] at hst
        obtain ⟨⟨⟨hwrites, hcall⟩, hcallee⟩, hargs⟩ := hst
        rw [eval_call hk]
        have hr := secure_callee cs frozen (.mk i cs) mask w htrust.child hcallee hw
        have hs := secure_arguments cs frozen (.mk i cs)
          (∀ c ∈ partOperands .function cs, divergentNode div bytes c = false) _ mask _
          htrust.child hargs hr.alike hr.agree
        refine call_secure (hr.andThen hs) (fun hn => ?_) hlow hwrites
        obtain ⟨hfree, h1, h2⟩ := call_operands hcall hn
        exact ⟨⟨h1, h2⟩, hfree⟩
      · rw [steady_operator hk, Bool.and_eq_true] at hst
        rw [eval_operator hk]
        have hr := secure_operands cs frozen (M.short (.mk i cs)) (.mk i cs) false True
          (fun _ => []) mask w htrust.child hst.2 hw (fun _ _ _ _ _ => rfl) fun _ _ => trivial
        refine operator_secure hr (fun hn => ⟨trivial, Bool.and_false _, fun c hc => ?_⟩) hlow hst.1
        obtain ⟨hc, hcn⟩ := List.mem_filter.mp hc
        exact operand_steady hnamed hk hn c hc hcn

/-- Operands; `apart`: some before them may differ, `u`: none does. -/
theorem secure_operands : ∀ (cs : List Node) (frozen : Text → Bool) (short : Bool) (n : Node)
    (apart : Bool) (u : Prop) (vs : ι → Operands V) (mask : Mask ι) (w : Wave ι Text V),
    (∀ c ∈ cs, Trusted low div bytes c) →
    steadyOperands M.toDialect div bytes frozen short apart cs = true →
    Gathered (SharedName div) mask w →
    (u → ∀ l m, mask l = true → mask m = true → vs l = vs m) →
    (short = true → apart = false → u) →
    ReadPost (SharedName div) low frozen
      (u ∧ (short && apart) = false
        ∧ ∀ c ∈ cs.filter fun c => c.info.named, divergentNode div bytes c = false)
      mask w (evalOperands M bytes short n vs cs mask w)
  | [], frozen, short, n, apart, u, vs, mask, w, _, _, hw, hvs, _ =>
      ⟨nofun, fun _ _ => rfl, fun _ _ _ _ => rfl, hw, fun hu => hvs hu.1⟩
  | c :: cs, frozen, short, n, apart, u, vs, mask, w, htrust, hst, hw, hvs, hshort => by
      have hrest : ∀ m ∈ cs, Trusted low div bytes m :=
        fun m hm => htrust m (List.mem_cons_of_mem _ hm)
      unfold steadyOperands at hst
      unfold evalOperands
      by_cases hnamed : c.info.named = true
      · rw [if_pos hnamed, Bool.and_eq_true] at hst
        rw [if_pos hnamed]
        have hr := operand_secure (n := n) (secure_eval c _ hnamed (htrust c (List.mem_cons_self ..))
          hst.1) hw fun hs ha => hvs (hshort hs ha)
        refine hr.andThen ((secure_operands cs frozen short n _
          (u ∧ (short && apart) = false ∧ divergentNode div bytes c = false) _ mask _ hrest hst.2
          hr.alike (fun hu l m hl hm => ?_) fun hs ha => ?_).weaken fun hu => ?_)
        · rw [hvs hu.1 l m hl hm, hr.agree hu.2 l m hl hm]
        · obtain ⟨hapart, hdiv⟩ := Bool.or_eq_false_iff.mp ha
          exact ⟨hshort hs hapart, by rw [hapart, Bool.and_false], hdiv⟩
        · have hdiv := hu.2.2 c (List.mem_filter.mpr ⟨List.mem_cons_self .., hnamed⟩)
          refine ⟨⟨hu.1, hu.2.1, hdiv⟩, by rw [hdiv, Bool.or_false]; exact hu.2.1, fun m hm => ?_⟩
          obtain ⟨hm, hmn⟩ := List.mem_filter.mp hm
          exact hu.2.2 m (List.mem_filter.mpr ⟨List.mem_cons_of_mem _ hm, hmn⟩)
      · rw [if_neg hnamed] at hst ⊢
        refine (secure_operands cs frozen short n apart u vs mask w hrest hst hw hvs hshort).weaken
          fun hu => ⟨hu.1, hu.2.1, fun m hm => hu.2.2 m ?_⟩
        obtain ⟨hm, hmn⟩ := List.mem_filter.mp hm
        exact List.mem_filter.mpr ⟨List.mem_cons_of_mem _ hm, hmn⟩

theorem secure_callee : ∀ (ns : List Node) (frozen : Text → Bool) (n : Node) (mask : Mask ι)
    (w : Wave ι Text V), (∀ c ∈ ns, Trusted low div bytes c) →
    steadyPart M.toDialect div bytes frozen .function ns = true →
    Gathered (SharedName div) mask w →
    ReadPost (SharedName div) low frozen
      (∀ c ∈ partOperands .function ns, divergentNode div bytes c = false)
      mask w (evalCallee M bytes n ns mask w)
  | [], frozen, n, mask, w, _, _, hw =>
      ⟨nofun, fun _ _ => rfl, fun _ _ _ _ => rfl, hw, fun _ _ _ _ _ => rfl⟩
  | .mk i cs :: ns, frozen, n, mask, w, htrust, hst, hw => by
      unfold steadyPart at hst
      unfold evalCallee partOperands
      by_cases hf : i.field = some .function
      · rw [if_pos hf] at hst ⊢
        rw [if_pos hf]
        exact (secure_operands cs frozen false n false True _ mask w
          (htrust _ (List.mem_cons_self ..)).child hst hw (fun _ _ _ _ _ => rfl) nofun).weaken
          fun hu => ⟨trivial, rfl, hu⟩
      · rw [if_neg hf] at hst ⊢
        rw [if_neg hf]
        exact secure_callee ns frozen n mask w (fun c hc => htrust c (List.mem_cons_of_mem _ hc))
          hst hw

theorem secure_arguments : ∀ (ns : List Node) (frozen : Text → Bool) (n : Node) (u : Prop)
    (vs : ι → Operands V) (mask : Mask ι) (w : Wave ι Text V),
    (∀ c ∈ ns, Trusted low div bytes c) →
    steadyPart M.toDialect div bytes frozen .arguments ns = true →
    Gathered (SharedName div) mask w →
    (u → ∀ l m, mask l = true → mask m = true → vs l = vs m) →
    ReadPost (SharedName div) low frozen
      (u ∧ ∀ c ∈ partOperands .arguments ns, divergentNode div bytes c = false)
      mask w (evalArguments M bytes n vs ns mask w)
  | [], frozen, n, u, vs, mask, w, _, _, hw, hvs =>
      ⟨nofun, fun _ _ => rfl, fun _ _ _ _ => rfl, hw, fun hu => hvs hu.1⟩
  | .mk i cs :: ns, frozen, n, u, vs, mask, w, htrust, hst, hw, hvs => by
      unfold steadyPart at hst
      unfold evalArguments partOperands
      by_cases hf : i.field = some .arguments
      · rw [if_pos hf] at hst ⊢
        rw [if_pos hf]
        exact (secure_operands cs frozen false n false u vs mask w
          (htrust _ (List.mem_cons_self ..)).child hst hw hvs nofun).weaken
          fun hu => ⟨hu.1, rfl, hu.2⟩
      · rw [if_neg hf] at hst ⊢
        rw [if_neg hf]
        exact secure_arguments ns frozen n u vs mask w
          (fun c hc => htrust c (List.mem_cons_of_mem _ hc)) hst hw hvs
end

end Expressions

/-! ## §3. Statements. -/

section Statements

variable {ι V : Type} {M : Machine ι V} {div : List Text} {bytes : Text} {low : Node → Prop}
  {B : Mask ι} {c : Context Text LaneJump} {fuel : Nat}

/-- What is observed of a node does not depend on the field it fills. -/
def FieldFree (low : Node → Prop) : Prop := ∀ n f, low n → low (n.withField f)

theorem trusted_plain (hlow : FieldFree low) {n : PlainNode} {f : Option Field}
    (h : Trusted low div bytes (n.toNode f)) : Trusted low div bytes n.node := by
  intro m hm hnamed hl
  cases hnode : n.node with
  | mk i cs =>
      rw [PlainNode.toNode, hnode] at h
      rw [hnode] at hm
      cases hm with
      | refl =>
          have hdiv := h _ .refl hnamed (hlow _ f hl)
          unfold divergentNode at hdiv ⊢
          rwa [classify_withField] at hdiv
      | child hc hsub => exact h m (.child hc hsub) hnamed hl

/-- An expression evaluated for what it writes. -/
theorem secure_perform {n : PlainNode} (hn : Trusted low div bytes n.node)
    (hst : steadyNode M.toDialect div bytes c.frozen n.node = true) :
    Secure (SharedName div) low B c (SharedName div) (perform M bytes n) :=
  Secure.withValue (secure_eval n.node c.frozen n.named hn hst)
    fun _ _ _ _ => Secure.skip fun _ h => h

theorem secure_optional {n : Option PlainNode} (hn : ∀ m ∈ n, Trusted low div bytes m.node)
    (hst : steadyOptional M.toDialect div bytes c.frozen n = true) :
    Secure (SharedName div) low B c (SharedName div) (performOptional M bytes n) := by
  cases n with
  | none => exact Secure.skip fun _ h => h
  | some m => exact secure_perform (hn m rfl) hst

/-- A branch on a value. -/
theorem secure_branch {n : PlainNode} {p : V → Bool} {a b : Act ι Text V Node LaneJump}
    (hn : Trusted low div bytes n.node)
    (hst : steadyNode M.toDialect div bytes c.frozen n.node = true)
    (ha : ∀ B, Secure (SharedName div) low B (c.under (divergentNode div bytes n.node))
      (SharedName div) a)
    (hb : ∀ B, Secure (SharedName div) low B (c.under (divergentNode div bytes n.node))
      (SharedName div) b) :
    Secure (SharedName div) low B c (SharedName div)
      (Act.withValue (eval M bytes n.node) fun v => Act.split (fun l => p (v l)) a b) := by
  refine Secure.withValue (secure_eval n.node c.frozen n.named hn hst) fun v B' _ hv => ?_
  refine Secure.split (fun _ h => h) (fun hdiv l m hl hm => ?_) (ha B') (hb B')
  rw [hv hdiv l m hl hm]

/-- The test of a loop. -/
theorem secure_test {cond : Option PlainNode} (hn : ∀ m ∈ cond, Trusted low div bytes m.node)
    (hst : steadyTest M.toDialect div bytes c cond = true) :
    Secure (SharedName div) low B c (SharedName div) (loopTest M bytes cond) := by
  cases cond with
  | none => exact Secure.skip fun _ h => h
  | some n =>
      obtain ⟨hnode, hmode⟩ := (Bool.and_eq_true _ _).mp hst
      refine secure_branch (hn n rfl) hnode (fun _ => Secure.skip fun _ h => h) fun _ => ?_
      refine Secure.leave (fun _ h => h) fun j hj => ?_
      rw [← Outcome.jump.inj hj]
      exact of_decide_eq_true hmode

/-- A statement in a scope of its own. -/
theorem secure_scoped {s : Stmt} {a : Act ι Text V Node LaneJump}
    (ha : Secure (SharedName div) low B (c.inside (stmtDeclares bytes s)) (SharedName div) a) :
    Secure (SharedName div) low B c (SharedName div) (Act.scope (stmtDeclares bytes s) a) :=
  Secure.scope (fun _ h => h) (fun _ h _ => h) ha

/-- A turn of a loop: its body is the target of `continue`. -/
theorem secure_turn {s : Stmt} {apart : Bool} {a : Act ι Text V Node LaneJump}
    (ha : Secure (SharedName div) low B ((c.target .cont apart noName).inside
      (stmtDeclares bytes s)) (SharedName div) a) :
    Secure (SharedName div) low B c (SharedName div)
      (Act.catching .cont (Act.scope (stmtDeclares bytes s) a)) :=
  Secure.catching (fun _ h => h) (fun _ _ _ => rfl) (secure_scoped ha)

/-- A loop is the target of `break`. -/
theorem secure_loop {apart : Bool} {turn : Act ι Text V Node LaneJump}
    (h : Secure (SharedName div) low B (c.target .brk apart noName) (SharedName div) turn) :
    Secure (SharedName div) low B c (SharedName div)
      (Act.catching .brk (Act.iterate turn fuel)) :=
  Secure.catching (fun _ h => h) (fun _ _ _ => rfl) (Secure.iterate (fun _ h => h) h fuel)

theorem trusted_optional (hlow : FieldFree low) {n : Option PlainNode} {f : Option Field}
    (h : ∀ p ∈ optionalNode f n, Trusted low div bytes p) :
    ∀ m ∈ n, Trusted low div bytes m.node := by
  intro m hm
  cases hm
  exact trusted_plain hlow (h _ (List.mem_singleton_self _))

/-- The parts of a `for`. -/
theorem trusted_for (hlow : FieldFree low) {span : ByteSpan} {init cond update : Option PlainNode}
    {body : Stmt} {f : Option Field}
    (h : Trusted low div bytes ((Stmt.forLoop span init cond update body).toNode f)) :
    (∀ m ∈ init, Trusted low div bytes m.node) ∧ (∀ m ∈ cond, Trusted low div bytes m.node)
      ∧ (∀ m ∈ update, Trusted low div bytes m.node)
      ∧ Trusted low div bytes (body.toNode (some .body)) := by
  have hparts : ∀ n ∈ optionalNode (some (.other "initializer".toList)) init
      ++ optionalNode (some .condition) cond
      ++ optionalNode (some (.other "update".toList)) update ++ [body.toNode (some .body)],
      Trusted low div bytes n := h.child
  refine ⟨?_, ?_, ?_, hparts _ (List.mem_append_right _ (List.mem_singleton_self _))⟩
  · exact trusted_optional hlow fun n hn => hparts n
      (List.mem_append_left _ (List.mem_append_left _ (List.mem_append_left _ hn)))
  · exact trusted_optional hlow fun n hn => hparts n
      (List.mem_append_left _ (List.mem_append_left _ (List.mem_append_right _ hn)))
  · exact trusted_optional hlow fun n hn => hparts n
      (List.mem_append_left _ (List.mem_append_right _ hn))

/-- A `for` with secure turns: the names of its initialiser die with it. -/
theorem secure_for {init : Option PlainNode} {apart : Bool} {turn : Act ι Text V Node LaneJump}
    (hinit : ∀ m ∈ init, Trusted low div bytes m.node)
    (hst : steadyOptional M.toDialect div bytes (c.inside (initDeclares bytes init)).frozen init
      = true)
    (hturn : Secure (SharedName div) low B ((c.inside (initDeclares bytes init)).target .brk apart
      (initDeclares bytes init)) (SharedName div) turn) :
    Secure (SharedName div) low B c (SharedName div) (Act.scope (initDeclares bytes init)
      (Act.seq (performOptional M bytes init) (Act.catching .brk (Act.iterate turn fuel)))) := by
  refine Secure.scope (M := fun x => SharedName div x ∧ initDeclares bytes init x = false)
    (fun _ h => h) (fun _ h hx => ⟨h, hx⟩) (Secure.seq (fun _ h => h.1)
      (secure_optional hinit hst) ?_)
  exact Secure.catching (fun _ h => h.1) (fun _ _ h => h.2)
    (Secure.iterate (fun _ h => h) hturn fuel)

mutual
/-- **A steady statement is secure.** -/
theorem secure_exec (hlow : FieldFree low) (s : Stmt) {f : Option Field}
    {c : Context Text LaneJump} (htrust : Trusted low div bytes (s.toNode f))
    (hst : steady M.toDialect div bytes c s = true) (B : Mask ι) :
    Secure (SharedName div) low B c (SharedName div) (exec M bytes fuel s) := by
  cases s with
  | simple n => exact secure_perform (trusted_plain hlow htrust) hst
  | returnStmt span value =>
      unfold exec
      refine Secure.seq (fun _ h => h) (secure_optional ?_ hst) (Secure.leave (fun _ h => h) nofun)
      exact trusted_optional hlow htrust.child
  | breakStmt span =>
      refine Secure.leave (fun _ h => h) fun j hj => ?_
      rw [← Outcome.jump.inj hj]
      exact of_decide_eq_true hst
  | continueStmt span =>
      refine Secure.leave (fun _ h => h) fun j hj => ?_
      rw [← Outcome.jump.inj hj]
      exact of_decide_eq_true hst
  | compound span body =>
      unfold exec
      exact secure_from hlow body htrust.child hst (fun _ _ _ _ _ => rfl)
        (Secure.skip fun _ h => h)
  | ifThen span cond thenStmt =>
      obtain ⟨hcond, hthen⟩ := (Bool.and_eq_true _ _).mp hst
      unfold exec
      refine secure_branch (trusted_plain hlow (htrust.child _ (List.mem_cons_self ..))) hcond
        (fun B => secure_scoped (secure_exec hlow thenStmt
          (htrust.child _ (List.mem_cons_of_mem _ (List.mem_cons_self ..))) hthen B))
        fun _ => Secure.skip fun _ h => h
  | ifElse span cond thenStmt elseSpan elseStmt =>
      obtain ⟨hct, helse⟩ := (Bool.and_eq_true _ _).mp hst
      obtain ⟨hcond, hthen⟩ := (Bool.and_eq_true _ _).mp hct
      have hclause := htrust.child _ (List.mem_cons_of_mem _ (List.mem_cons_of_mem _
        (List.mem_singleton_self _)))
      unfold exec
      refine secure_branch (trusted_plain hlow (htrust.child _ (List.mem_cons_self ..))) hcond
        (fun B => secure_scoped (secure_exec hlow thenStmt
          (htrust.child _ (List.mem_cons_of_mem _ (List.mem_cons_self ..))) hthen B))
        fun B => secure_scoped (secure_exec hlow elseStmt
          (hclause.child _ (List.mem_singleton_self _)) helse B)
  | forLoop span init cond update body =>
      obtain ⟨hinit, hflags⟩ := (Bool.and_eq_true _ _).mp hst
      obtain ⟨apart, _, hflags⟩ := List.any_eq_true.mp hflags
      obtain ⟨apart', _, hflags⟩ := List.any_eq_true.mp hflags
      obtain ⟨hflags, hupdate⟩ := (Bool.and_eq_true _ _).mp hflags
      obtain ⟨hcond, hbody⟩ := (Bool.and_eq_true _ _).mp hflags
      obtain ⟨hinit', hcond', hupdate', hbody'⟩ := trusted_for hlow htrust
      unfold exec
      exact secure_for hinit' hinit (Secure.seq (fun _ h => h) (secure_test hcond' hcond)
        (Secure.seq (fun _ h => h) (secure_turn (secure_exec hlow body hbody' hbody B))
          (secure_optional hupdate' hupdate)))
  | whileLoop span cond body =>
      obtain ⟨apart, _, hflags⟩ := List.any_eq_true.mp hst
      obtain ⟨apart', _, hflags⟩ := List.any_eq_true.mp hflags
      obtain ⟨hcond, hbody⟩ := (Bool.and_eq_true _ _).mp hflags
      unfold exec
      refine secure_loop (Secure.seq (fun _ h => h) (secure_test ?_ hcond) (secure_turn
        (secure_exec hlow body (htrust.child _ (List.mem_cons_of_mem _ (List.mem_cons_self ..)))
          hbody B)))
      intro m hm
      cases hm
      exact trusted_plain hlow (htrust.child _ (List.mem_cons_self ..))
  | doLoop span body cond =>
      obtain ⟨apart, _, hflags⟩ := List.any_eq_true.mp hst
      obtain ⟨apart', _, hflags⟩ := List.any_eq_true.mp hflags
      obtain ⟨hcond, hbody⟩ := (Bool.and_eq_true _ _).mp hflags
      unfold exec
      refine secure_loop (Secure.seq (fun _ h => h) (secure_turn (secure_exec hlow body
        (htrust.child _ (List.mem_cons_self ..)) hbody B)) (secure_test ?_ hcond))
      intro m hm
      cases hm
      exact trusted_plain hlow (htrust.child _ (List.mem_cons_of_mem _ (List.mem_singleton_self _)))
  | switch span cond bodySpan body =>
      obtain ⟨hcond, hflags⟩ := (Bool.and_eq_true _ _).mp hst
      obtain ⟨apart, _, hbody⟩ := List.any_eq_true.mp hflags
      have hcond' := trusted_plain hlow (htrust.child _ (List.mem_cons_self ..))
      have hnode := htrust.child _ (List.mem_cons_of_mem _ (List.mem_singleton_self _))
      unfold exec
      refine Secure.withValue (secure_eval cond.node c.frozen cond.named hcond' hcond)
        fun v B' _ hv => ?_
      refine Secure.catching (fun _ h => h) (fun _ _ _ => rfl)
        (secure_cases hlow body 0 hnode.child hbody fun hdiv l m hl hm => ?_)
      rw [hv hdiv l m hl hm]
  | caseStmt span label body =>
      unfold exec
      exact secure_from hlow body (fun n hn => htrust.child n (List.mem_append_right _ hn)) hst
        (fun _ _ _ _ _ => rfl) (Secure.skip fun _ h => h)

theorem secure_from (hlow : FieldFree low) (ss : Stmts) {c : Context Text LaneJump} {apart : Bool}
    {p B : Mask ι} {rest : Act ι Text V Node LaneJump}
    (htrust : ∀ n ∈ ss.toNodes, Trusted low div bytes n)
    (hst : steadyFrom M.toDialect div bytes c apart ss = true)
    (hp : apart = false → ∀ l m, B l = true → B m = true → p l = p m)
    (hrest : Secure (SharedName div) low B (contextAfter bytes c ss) (SharedName div) rest) :
    Secure (SharedName div) low B c (SharedName div) (execFrom M bytes fuel p rest ss) := by
  cases ss with
  | nil => exact hrest
  | cons s ss =>
      obtain ⟨hs, hss⟩ := (Bool.and_eq_true _ _).mp hst
      unfold execFrom
      refine secure_scoped (Secure.seq (fun _ h => h) (Secure.split (fun _ h => h) hp ?_
        (Secure.skip fun _ h => h)) ?_)
      · exact secure_exec hlow s (htrust _ (List.mem_cons_self ..)) hs B
      · exact secure_from hlow ss (fun n hn => htrust n (List.mem_cons_of_mem _ hn)) hss hp hrest

theorem secure_cases (hlow : FieldFree low) (ss : Stmts) (i : Nat) {c : Context Text LaneJump}
    {apart : Bool} {entry : ι → Option Nat} {B : Mask ι}
    (htrust : ∀ n ∈ ss.toNodes, Trusted low div bytes n)
    (hst : steadyCases M.toDialect div bytes c apart ss = true)
    (hentry : apart = false → ∀ l m, B l = true → B m = true → entry l = entry m) :
    Secure (SharedName div) low B c (SharedName div) (execCases M bytes fuel entry i ss) := by
  have hp : apart = false → ∀ l m, B l = true → B m = true →
      entered (entry l) i = entered (entry m) i :=
    fun ha l m hl hm => by rw [hentry ha l m hl hm]
  cases ss with
  | nil => exact Secure.skip fun _ h => h
  | cons s ss =>
      have hs := htrust _ (List.mem_cons_self ..)
      have hss : ∀ n ∈ ss.toNodes, Trusted low div bytes n :=
        fun n hn => htrust n (List.mem_cons_of_mem _ hn)
      cases s with
      | caseStmt span label body =>
          obtain ⟨hbody, hrest⟩ := (Bool.and_eq_true _ _).mp hst
          exact secure_from hlow body (fun n hn => hs.child n (List.mem_append_right _ hn)) hbody hp
            (secure_cases hlow ss (i + 1) hss hrest hentry)
      | _ =>
          obtain ⟨hone, hrest⟩ := (Bool.and_eq_true _ _).mp hst
          exact secure_scoped (Secure.seq (fun _ h => h) (Secure.split (fun _ h => h) hp
            (secure_exec hlow _ hs hone B) (Secure.skip fun _ h => h))
            (secure_cases hlow ss (i + 1) hss hrest hentry))
end

end Statements

end ShaderClippy.ControlFlow
