/-
  ShaderClippy.Rules.DeadStoreRuns

  **IS A REPORTED WRITE DEAD?** (`dead_store_sv_target.cpp`)

  Functions are straight-line code here, laid out with blanks and comments, and
  anything may stand between them. A write is dead if every execution of its
  function writes all of its place again before it reads a part of it
  (`Shader.Dead`).

  The rule looks at braces and names: it asks for another write to a field of the
  same name in the same braces. What a function reads and writes can be told from
  its text, but for the values of subscripts (`Shader.accesses`, `accesses_eq`).
  So the rule is right if every write with such a successor is followed there by a
  write to all of its place, with no read of the place before that, and, where
  nothing is written at a subscript, only then (`deadStoreLaw_iff`).
-/
import ShaderClippy.Hlsl.Accesses
import ShaderClippy.Lib.CommentZones
import ShaderClippy.Rules.DeadStore

namespace ShaderClippy.Rules.DeadStore

open Hlsl

/-! ## §1. Shaders of straight-line functions. -/

/-- Blanks and comments. -/
def isTrivia (s : Text) : Bool :=
  (Comments.marks .code s).all (fun m => m.2 || isSpace m.1) && Comments.after .code s == .code

def grownFrom : Text → Text → Bool
  | _, [] => true
  | cur, c :: cs => grows cur c && grownFrom (cur ++ [c]) cs

/-- Tokens that are read back as they are, with comments between them. -/
def isLaid : List Token → Bool
  | [] => true
  | t :: ts =>
      isTrivia t.lead && !t.body.isEmpty && grownFrom [] t.body
        && (Munch.render ts).head?.all (fun c => !grows t.body c) && isLaid ts

/-- `return`, with or without a value. -/
structure Return where
  keyword : Token
  value : Option Expr
  semi : Token

def Return.toks (r : Return) : List Token := r.keyword :: ((r.value.elim [] Expr.toks) ++ [r.semi])

/-- A function: its text up to the brace, its body, and what it returns. -/
structure Function where
  header : Text
  left : Token
  body : Body
  result : Option Return
  right : Token

namespace Function

def toks (f : Function) : List Token :=
  f.left :: (f.body.toks ++ (f.result.elim [] Return.toks ++ [f.right]))

def text (f : Function) : Text := f.header ++ Munch.render f.toks

end Function

section Grammar

variable (isType : Text → Bool)

structure Function.WellFormed (f : Function) : Prop where
  laid : isLaid f.toks = true
  left : f.left.body = ['{']
  right : f.right.body = ['}']
  body : f.body.WellFormed isType
  result : ∀ r, f.result = some r → r.keyword.body = "return".toList ∧ r.semi.body = [';']
    ∧ ∀ e, r.value = some e → e.WellFormed isType

end Grammar

/-- A function, or anything else at the top of a file. -/
inductive Item where
  | function (f : Function)
  | other (text : Text)

def Item.text : Item → Text
  | .function f => f.text
  | .other text => text

/-- A file whose functions are straight-line code. -/
structure Shader where
  isType : Text → Bool
  callee : Text → Interface
  items : List Item
  wellFormed : ∀ f, Item.function f ∈ items → f.WellFormed isType

namespace Shader

def text (sh : Shader) : Text := sh.items.flatMap Item.text

/-- The functions, with the offsets of their texts. -/
def functionsFrom : Nat → List Item → List (Nat × Function)
  | _, [] => []
  | n, .function f :: items => (n, f) :: functionsFrom (n + f.text.length) items
  | n, .other text :: items => functionsFrom (n + text.length) items

def functions (sh : Shader) : List (Nat × Function) := functionsFrom 0 sh.items

end Shader

/-! ## §2. Executions. -/

section Runs

variable {V K : Type} (I : Operations V K) (sh : Shader)

/-- The value that is returned is evaluated. -/
def Return.run (n : Nat) (r : Return) : Run V K Unit :=
  match r.value with
  | none => pure ()
  | some e => do let _ ← e.eval I sh.callee sh.isType (n + r.keyword.text.length)

/-- Where the body of a function begins. -/
def Function.bodyAt (n : Nat) (f : Function) : Nat := n + f.header.length + f.left.text.length

def Function.run (n : Nat) (f : Function) : Run V K Unit := do
  f.body.run I sh.callee sh.isType (f.bodyAt n)
  match f.result with
  | none => pure ()
  | some r => r.run I sh (f.bodyAt n + (Munch.render f.body.toks).length)

/-- What an execution reads and writes, from values of the variables outside. -/
def Function.trace (n : Nat) (f : Function) (store : Text → Nat → V) : List (Access K) :=
  ((f.run I sh n).run ⟨store, [], []⟩).2.trace

end Runs

/-- **The write at `pos` is dead**: on every execution of its function, whatever the
operations compute. -/
def Shader.Dead (sh : Shader) (pos : Nat) : Prop :=
  ∃ f ∈ sh.functions, ∀ (V K : Type) [DecidableEq K] (I : Operations V K) (store : Text → Nat → V),
    isDead pos (f.2.trace I sh f.1 store) = true

/-- Each write that is reported is dead. -/
def DeadStoreLaw (source : SourceId) (sh : Shader) : Prop :=
  ∀ d ∈ onTree source sh.text, sh.Dead d.primarySpan.bytes.lo

/-! ## §3. When the law holds. -/

/-- Operations on one value. -/
def trivialOperations : Operations Unit Unit where
  number _ := ()
  declared _ := ()
  unary _ _ := ()
  cast _ _ := ()
  binary _ _ _ := ()
  cond _ _ _ := ()
  step _ _ := ()
  call _ _ _ := ()
  select _ _ := ()
  update _ _ _ := ()
  key _ := ()

/-- What a function reads and writes, from its text: an element is one at some
subscript. -/
def Shader.accesses (sh : Shader) (f : Nat × Function) : List (Access Unit) :=
  f.2.trace trivialOperations sh f.1 fun _ _ => ()

/-- Behind the write at `pos` its function goes on to write all of the place, and
reads nothing of it before. -/
def Shader.SurelyDead (sh : Shader) (pos : Nat) : Prop :=
  ∃ f ∈ sh.functions, isSurelyDead pos (sh.accesses f) = true

/-- Nothing is written at a subscript. -/
def Shader.WritesPlain (sh : Shader) : Prop :=
  ∀ f ∈ sh.functions, ∀ a ∈ sh.accesses f, a.isWrite = true → a.place.plain = true

/-- **Every execution reads and writes what the text says.** -/
theorem accesses_eq {V K : Type} (I : Operations V K) (sh : Shader) (f : Nat × Function) (store : Text → Nat → V) :
    (f.2.trace I sh f.1 store).map Access.shape = (sh.accesses f).map Access.shape := by
  have hrun : Alike AnyTwo (f.2.run I sh f.1) (f.2.run trivialOperations sh f.1) := by
    refine (body_alike I trivialOperations sh.callee sh.isType f.2.body _).bind fun _ _ _ => ?_
    cases f.2.result with
    | none => exact .result trivial
    | some r =>
        show Alike AnyTwo (r.run I sh _) (r.run trivialOperations sh _)
        unfold Return.run
        cases r.value with
        | none => exact .result trivial
        | some e => exact (eval_alike I trivialOperations sh.callee sh.isType e _).bind fun _ _ _ => .result trivial
  exact (hrun ⟨store, [], []⟩ ⟨fun _ _ => (), [], []⟩ rfl rfl).2.1

/-- Forgetting subscripts that are not known forgets nothing. -/
theorem map_shape_unit (noted : List (Access Unit)) : noted.map Access.shape = noted := by
  have hselector : (Selector.shape : Selector Unit → Selector Unit) = id := by
    funext s
    cases s <;> rfl
  have haccess : (Access.shape : Access Unit → Access Unit) = id := by
    funext a
    rw [Access.shape, Place.shape, hselector, List.map_id]
    rfl
  rw [haccess, List.map_id]

theorem dead_of_surely {sh : Shader} {pos : Nat} (h : sh.SurelyDead pos) : sh.Dead pos := by
  obtain ⟨f, hf, hdead⟩ := h
  refine ⟨f, hf, fun V K _ I store => isDead_of_surely ?_⟩
  rw [accesses_eq, map_shape_unit]
  exact hdead

theorem surely_of_dead {sh : Shader} (hplain : sh.WritesPlain) {pos : Nat} (h : sh.Dead pos) :
    sh.SurelyDead pos := by
  obtain ⟨f, hf, hdead⟩ := h
  exact ⟨f, hf, surely_of_isDead (hplain f hf) (hdead Unit Unit trivialOperations fun _ _ => ())⟩

/-- **The law holds if every write with another one behind it in the same braces is
followed by a write to all of its place with no read of it before; and, where
nothing is written at a subscript, only if.** -/
theorem deadStoreLaw_iff (source : SourceId) (sh : Shader) :
    ((∀ field ∈ collectSvTargetFields sh.text, ∀ range range', InARow field sh.text range range' →
        sh.SurelyDead range.1) → DeadStoreLaw source sh) ∧
    (sh.WritesPlain → DeadStoreLaw source sh →
      ∀ field ∈ collectSvTargetFields sh.text, ∀ range range', InARow field sh.text range range' →
        sh.SurelyDead range.1) := by
  constructor
  · intro h d hd
    obtain ⟨field, hfield, range, range', hrow, rfl⟩ := mem_onTree_iff.mp hd
    exact dead_of_surely (h field hfield range range' hrow)
  · intro hplain h field hfield range range' hrow
    exact surely_of_dead hplain (h _ (mem_onTree_iff.mpr ⟨field, hfield, range, range', hrow, rfl⟩))

/-! ## §4. Files where it holds, and where it does not. -/

/-- One execution is enough. -/
theorem not_deadStoreLaw {source : SourceId} {sh : Shader} {d : Diagnostic} (hd : d ∈ onTree source sh.text)
    (hno : ∀ f ∈ sh.functions,
      isDead d.primarySpan.bytes.lo (f.2.trace trivialOperations sh f.1 fun _ _ => ()) = false) :
    ¬ DeadStoreLaw source sh := by
  intro hlaw
  obtain ⟨f, hf, hdead⟩ := hlaw d hd
  have h := hdead Unit Unit trivialOperations fun _ _ => ()
  rw [hno f hf] at h
  cases h

def word (s : String) : Token := ⟨[], s.toList⟩

def spaced (s : String) : Token := ⟨[' '], s.toList⟩

/-- `o.c=value`. -/
def writeTo (o : String) (value : Expr) : Expr :=
  .binary (.suffix (.atom (word o)) (.member (word ".") (word "c"))) (word "=") value

def header : Text := "struct S{float4 c:SV_Target;};".toList

/-- `S f(){S o,p; ... return o;}`. -/
def sampleFunction (body : Body) : Function where
  header := "S f()".toList
  left := word "\x7b"
  body := .decl [⟨[word "S"], spaced "o", []⟩, ⟨[word ","], word "p", []⟩] (word ";") body
  result := some ⟨word "return", some (.atom (spaced "o")), word ";"⟩
  right := word "\x7d"

theorem sampleFunction_wellFormed {isType : Text → Bool} {body : Body}
    (ho : kindOf isType ['o'] = .name) (hp : kindOf isType ['p'] = .name) (hbody : body.WellFormed isType)
    (hlaid : isLaid (sampleFunction body).toks = true) : (sampleFunction body).WellFormed isType := by
  refine ⟨hlaid, rfl, rfl, ⟨?_, rfl, hbody⟩, ?_⟩
  · intro d hd
    simp only [List.mem_cons, List.not_mem_nil, or_false] at hd
    rcases hd with rfl | rfl
    · exact ⟨ho, fun e he => absurd he List.not_mem_nil⟩
    · exact ⟨hp, fun e he => absurd he List.not_mem_nil⟩
  · rintro r ⟨⟩
    refine ⟨rfl, rfl, ?_⟩
    rintro e ⟨⟩
    exact Or.inl ho

def isS (s : Text) : Bool := s == ['S']

def noEffects (_ : Text) : Interface := ⟨fun _ => .byValue, []⟩

/-- A file with this function, and the struct in front of it. -/
def sample (body : Body) (hbody : body.WellFormed isS) (hlaid : isLaid (sampleFunction body).toks = true) :
    Shader where
  isType := isS
  callee := noEffects
  items := [.other header, .function (sampleFunction body)]
  wellFormed := by
    intro f hf
    rw [List.mem_cons, List.mem_singleton] at hf
    obtain hf | hf := hf
    · cases hf
    · cases hf
      exact sampleFunction_wellFormed rfl rfl hbody hlaid

theorem writeTo_wellFormed {o : String} (ho : kindOf isS o.toList = .name) {value : Expr}
    (hvalue : value.WellFormed isS) (hlevel : 1 ≤ value.level isS) : (writeTo o value).WellFormed isS :=
  ⟨kAssign, rfl, ⟨Or.inl ho, Nat.le_succ 15, rfl, rfl⟩, Nat.le_add_left 3 12, hvalue, hlevel⟩

def one : Expr := .atom (word "1")

/-- `o.c=1;p.c=1;`: the second write is to another object. -/
def otherObject : Shader :=
  sample (.expr (writeTo "o" one) (word ";") (.expr (writeTo "p" one) (word ";") .done))
    ⟨writeTo_wellFormed rfl (Or.inr rfl) (by decide), rfl, writeTo_wellFormed rfl (Or.inr rfl) (by decide), rfl, trivial⟩
    (by decide +kernel)

/-- `o.c=1;p=o;o.c=1;`: the object is read in between. -/
def readBetween : Shader :=
  sample (.expr (writeTo "o" one) (word ";")
      (.expr (.binary (.atom (word "p")) (word "=") (.atom (word "o"))) (word ";")
        (.expr (writeTo "o" one) (word ";") .done)))
    ⟨writeTo_wellFormed rfl (Or.inr rfl) (by decide), rfl,
      ⟨kAssign, rfl, Or.inl rfl, by decide, Or.inl rfl, by decide⟩, rfl,
      writeTo_wellFormed rfl (Or.inr rfl) (by decide), rfl, trivial⟩
    (by decide +kernel)

/-- `o.c=1;o.c=o.c;`: the second write reads the field first. -/
def readInWrite : Shader :=
  sample (.expr (writeTo "o" one) (word ";")
      (.expr (writeTo "o" (.suffix (.atom (word "o")) (.member (word ".") (word "c")))) (word ";") .done))
    ⟨writeTo_wellFormed rfl (Or.inr rfl) (by decide), rfl,
      writeTo_wellFormed rfl ⟨Or.inl rfl, by decide, rfl, rfl⟩ (by decide), rfl, trivial⟩
    (by decide +kernel)

/-- **In each of the three files a write that is not dead is reported.** -/
theorem deadStoreLaw_fails :
    ¬ DeadStoreLaw ⟨1⟩ otherObject ∧ ¬ DeadStoreLaw ⟨1⟩ readBetween ∧ ¬ DeadStoreLaw ⟨1⟩ readInWrite := by
  have hobject : diagnosticAt ⟨1⟩ ['c'] (43, 48) ∈ onTree ⟨1⟩ otherObject.text := by decide +kernel
  have hbetween : diagnosticAt ⟨1⟩ ['c'] (43, 48) ∈ onTree ⟨1⟩ readBetween.text := by decide +kernel
  have hwrite : diagnosticAt ⟨1⟩ ['c'] (43, 48) ∈ onTree ⟨1⟩ readInWrite.text := by decide +kernel
  exact ⟨not_deadStoreLaw hobject (by decide +kernel), not_deadStoreLaw hbetween (by decide +kernel),
    not_deadStoreLaw hwrite (by decide +kernel)⟩

/-- `o.c=1;o.c=1;`. -/
def rewritten : Shader :=
  sample (.expr (writeTo "o" one) (word ";") (.expr (writeTo "o" one) (word ";") .done))
    ⟨writeTo_wellFormed rfl (Or.inr rfl) (by decide), rfl, writeTo_wellFormed rfl (Or.inr rfl) (by decide), rfl, trivial⟩
    (by decide +kernel)

/-- Here the first write is reported, and it is dead: the function reads nothing
before it writes the field again. -/
theorem rewritten_reported :
    onTree ⟨1⟩ rewritten.text = [diagnosticAt ⟨1⟩ ['c'] (43, 48)] ∧ DeadStoreLaw ⟨1⟩ rewritten := by
  have hreported : onTree ⟨1⟩ rewritten.text = [diagnosticAt ⟨1⟩ ['c'] (43, 48)] := by decide +kernel
  refine ⟨hreported, (deadStoreLaw_iff ⟨1⟩ rewritten).1 fun field hfield range range' hrow => ?_⟩
  have hd : diagnosticAt ⟨1⟩ field range ∈ onTree ⟨1⟩ rewritten.text :=
    mem_onTree_iff.mpr ⟨field, hfield, range, range', hrow, rfl⟩
  rw [hreported, List.mem_singleton] at hd
  have hpos : range.1 = 43 := congrArg (fun d => d.primarySpan.bytes.lo) hd
  rw [hpos]
  exact ⟨_, List.mem_cons_self, by decide +kernel⟩

end ShaderClippy.Rules.DeadStore
